import RichText.Proofs.Landing
import RichText.Proofs.LinedBlock
import RichText.Proofs.Narrowed

namespace RichText

theorem toOption_eq_some {x : Except ε α} : x.toOption = some a ↔ x = .ok a := by
  cases x <;> simp [Except.toOption]

namespace Leaf

variable {p p' : Progress} {ls : List Leaf} {q : NodeId → Prop}

theorem fst_of_pass (hp : ∀ i ∈ p.1, q i) (hl : ∀ l ∈ ls, ∀ island ∈ l.islands, q island.id)
    (h : pass p ls = .ok p') : ∀ i ∈ p'.1, q i := by
  induction ls generalizing p with
  | nil => cases h; exact hp
  | cons l ls ih =>
    rw [pass_cons] at h
    cases hs : l.step p with
    | error => simp [hs, Except.bind] at h
    | ok p₁ =>
      rw [hs] at h
      refine ih ?_ (fun m hm => hl m (.tail _ hm)) h
      have hl := hl l (.head _)
      obtain ⟨i, k, site?, islands⟩ := l
      rw [step] at hs
      split at hs
      case isTrue => cases hs; exact hp
      case isFalse =>
        cases k with
        | text =>
          cases islands with
          | nil =>
            simp only at hs
            split_ifs at hs
            cases hs
            simp
          | cons island islands =>
            simp only at hs
            split_ifs at hs
            cases hs
            simpa using hl island (.head _)
        | lineBreak trailing =>
          cases trailing <;> simp only at hs
          case false =>
            split_ifs at hs
            cases hs
            simp
          case true => contradiction
        | _ => cases hs; simp

theorem pass_zero (h : pass (none, 0) ls = .ok p) :
    p = (none, 0) ∧ ∀ l ∈ ls, l.kind.isLeaf = false := by
  induction ls with
  | nil => cases h; exact ⟨rfl, List.forall_mem_nil _⟩
  | cons l ls ih =>
    rw [pass_cons] at h
    have hs : l.step (none, 0) = .ok (none, 0) ∧ l.kind.isLeaf = false ∨
        ∃ halt, l.step (none, 0) = .error halt := by
      obtain ⟨i, k, site?, islands⟩ := l
      cases k with
      | text s => cases islands <;> exact .inr ⟨_, by simp [step]; rfl⟩
      | lineBreak trailing => cases trailing <;> exact .inr ⟨_, by simp [step]; rfl⟩
      | _ => exact .inl ⟨by simp [step], rfl⟩
    obtain ⟨hs, hk⟩ | ⟨halt, hs⟩ := hs
    case inr => simp [hs, Except.bind] at h
    case inl =>
      rw [hs] at h
      obtain ⟨e, hls⟩ := ih h
      exact ⟨e, List.forall_mem_cons.mpr ⟨hk, hls⟩⟩

end Leaf

namespace Piece

variable {ps qs rs : List Piece} {left right : Nat}

def Lacks (q : Piece → Bool) (ps : List Piece) (left right : Nat) : Prop :=
  ∀ k p, left ≤ k → k < right → ps[k]? = some p → q p = false

namespace Lacks

variable {q : Piece → Bool}

theorem empty (h : right ≤ left) : Lacks q ps left right :=
  fun _ _ hle hlt => by omega

theorem mid (h : ∀ p ∈ qs, q p = false) :
    Lacks q (ps ++ qs ++ rs) ps.length (ps ++ qs).length := by
  intro k p hle hlt hk
  rw [List.getElem?_append_left hlt, List.getElem?_append_right hle] at hk
  exact h p (List.mem_of_getElem? hk)

theorem of_item (h : Lacks isChar ps left right) (e : qs.map item = ps.map item) :
    Lacks isChar qs left right := by
  intro k q hle hlt hk
  have hi := congrArg (·[k]?) e
  simp only [List.getElem?_map, hk, Option.map_some] at hi
  obtain ⟨p, hp, hi⟩ := Option.map_eq_some_iff.mp hi.symm
  have hc : q.isChar = p.isChar := by rw [isChar, isChar, node?, node?, hi]
  exact hc ▸ h k p hle hlt hp

end Lacks

-- A walk with no offsets left takes no notice of an embed without texts and breaks.
def isMute (p : Piece) : Bool :=
  p.node?.any fun n => (n.leaves none []).all (!·.kind.isLeaf)

end Piece

namespace Node

theorem not_isText_of_isAtomic {n : Node} (h : n.kind.isAtomic) : n.isText = false := by
  obtain ⟨i, k, cs⟩ := n
  cases k <;> first | rfl | contradiction

-- What a walk comes by in a text, a break or an embed: its pieces, or a gap if it is a text without
-- chars.
def beats (host : Option StyleSet) (n : Node) : List (Option Piece) :=
  if n.isEmptyText then [none] else n.items.map fun item => some ⟨item, host⟩

def beatsAll (ns : List Node) : List (Option Piece) :=
  ns.flatMap fun n => match n.kind with
    | .wrapper styles => n.children.flatMap (beats (some styles))
    | _ => n.beats none

variable {n : Node} {ns : List Node} {host : Option StyleSet}

theorem beatsAll_cons_wrapper {i : NodeId} {styles : StyleSet} {cs : List Node} :
    beatsAll (.mk i (.wrapper styles) cs :: ns) = cs.flatMap (beats (some styles)) ++ beatsAll ns :=
  rfl

theorem beatsAll_cons_solid (h : n.Solid) : beatsAll (n :: ns) = n.beats none ++ beatsAll ns := by
  have hw := not_isWrapper_of_solid h
  rw [beatsAll, List.flatMap_cons]
  split
  case h_1 hk => simp [isWrapper, hk, Kind.isWrapper] at hw
  case h_2 => rfl

theorem beats_of_not_isEmptyText (h : n.isEmptyText = false) :
    n.beats host = (n.items.map (Piece.mk · host)).map some := by
  rw [beats, if_neg (by simp [h]), List.map_map]
  rfl

theorem reduceOption_beats (host : Option StyleSet) (n : Node) :
    (n.beats host).reduceOption = n.items.map (⟨·, host⟩) := by
  cases h : n.isEmptyText
  case true => simp [beats, h, (Node.isEmptyText_iff.mp h).right, List.reduceOption]
  case false => rw [beats_of_not_isEmptyText h, List.reduceOption, List.filterMap_map,
      Function.id_comp, List.filterMap_some]

theorem reduceOption_flatMap_beats (host : Option StyleSet) (ns : List Node) :
    (ns.flatMap (beats host)).reduceOption = (ns.flatMap items).map (⟨·, host⟩) := by
  induction ns with
  | nil => rfl
  | cons n ns ih =>
    rw [List.flatMap_cons, List.reduceOption_append, reduceOption_beats, ih, List.flatMap_cons,
      List.map_append]

theorem reduceOption_beatsAll (ns : List Node) :
    (beatsAll ns).reduceOption = ns.flatMap pieces := by
  induction ns with
  | nil => rfl
  | cons n ns ih =>
    obtain ⟨i, k, cs⟩ := n
    rw [beatsAll, List.flatMap_cons, List.reduceOption_append, List.flatMap_cons]
    refine congrArg₂ _ ?_ ih
    cases k <;> first | exact reduceOption_flatMap_beats .. | exact reduceOption_beats ..

end Node

-- Where a walk through a block comes to rest, with the number of pieces before that: in a text that
-- may be empty, or beside a break or an embed, or at the end.
inductive Rest where
  | within (index : Nat) (isEmpty : Bool)
  | beside (index : Nat)

namespace Rest

def index : Rest → Nat
  | within index _ | beside index => index

def walk (k r : Nat) : List (Option Piece) → Rest
  | [] => beside k
  | none :: bs => if r = 0 then within k true else walk k r bs
  | some p :: bs => match p.item with
    | .char _ => if r ≤ 1 then within (k + r) false else walk (k + 1) (r - 1) bs
    | .node n => match Leaf.pass (none, r) (n.leaves none []) with
      | .error _ => beside k
      | .ok progress => walk (k + 1) progress.2 bs

variable {k r : Nat} {n : Node} {host : Option StyleSet} {bs : List (Option Piece)} {p : Piece}

theorem walk_char (h : p.item = .char c) : walk k r (some p :: bs) =
    if r ≤ 1 then within (k + r) false else walk (k + 1) (r - 1) bs := by
  simp only [walk, h]

theorem walk_error (h : p.item = .node n)
    (hp : Leaf.pass (none, r) (n.leaves none []) = .error halt) :
    walk k r (some p :: bs) = beside k := by
  simp only [walk, h, hp]

theorem walk_ok (h : p.item = .node n)
    (hp : Leaf.pass (none, r) (n.leaves none []) = .ok progress) :
    walk k r (some p :: bs) = walk (k + 1) progress.2 bs := by
  simp only [walk, h, hp]

theorem walk_chars (cs : List Char) (hne : cs ≠ []) :
    walk k r (cs.map (fun c => some ⟨.char c, host⟩) ++ bs) =
      if r ≤ cs.length then within (k + r) false
      else walk (k + cs.length) (r - cs.length) bs := by
  induction cs generalizing k r with
  | nil => contradiction
  | cons c cs ih =>
    rw [List.map_cons, List.cons_append, walk_char rfl, List.length_cons]
    cases cs with
    | nil => rfl
    | cons d cs =>
      rw [ih (List.cons_ne_nil _ _)]
      simp only [List.length_cons]
      by_cases h : r ≤ 1
      case pos => rw [if_pos h, if_pos (by omega)]
      case neg =>
        have hk : k + 1 + (r - 1) = k + r := by omega
        have hk' : k + 1 + (cs.length + 1) = k + (cs.length + 1 + 1) := by omega
        have hr : r - 1 - (cs.length + 1) = r - (cs.length + 1 + 1) := by omega
        rw [if_neg h, hk, hk', hr]
        exact if_congr (by omega) rfl rfl

theorem walk_text (ht : n.isText) : walk k r (n.beats host ++ bs) =
    if r ≤ n.charCount then within (k + r) n.isEmptyText
    else walk (k + n.charCount) (r - n.charCount) bs := by
  have ⟨s, hk⟩ := Node.isText_iff.mp ht
  have hlen := Node.length_items ht
  cases he : n.isEmptyText
  case true =>
    have hz : n.charCount = 0 := by simp [← hlen, (Node.isEmptyText_iff.mp he).right]
    rw [Node.beats, if_pos he, hz]
    simp only [List.singleton_append, walk, Nat.le_zero_eq]
    split_ifs with h
    case pos => rw [h]; rfl
    case neg => rfl
  case false =>
    rw [Node.items_text hk, List.length_map] at hlen
    have hne : s.toList ≠ [] := by
      have := Node.items_ne_nil he
      simpa [Node.items_text hk] using this
    rw [Node.beats, if_neg (by simp [he]), Node.items_text hk, List.map_map, ← hlen]
    exact walk_chars _ hne

theorem walk_atomic (hk : n.kind.isAtomic) : walk k r (n.beats host ++ bs) =
    match Leaf.pass (none, r) (n.leaves none []) with
    | .error _ => beside k
    | .ok progress => walk (k + 1) progress.2 bs := by
  have ht := Node.not_isText_of_isAtomic hk
  have he : n.isEmptyText = false := by
    rw [Bool.eq_false_iff]
    intro he
    simp [(Node.isEmptyText_iff.mp he).left] at ht
  rw [Node.beats, if_neg (by simp [he]), Node.items_of_not_isText ht]
  rfl

theorem index_walk_zero_solid (hn : n.Solid) (hf : n.firstLeaf.isText) :
    (walk k 0 (n.beats host ++ bs)).index = k := by
  obtain ht | hk := Node.solid_iff.mp hn
  case inl =>
    rw [walk_text ht, if_pos (Nat.zero_le _)]
    rfl
  case inr =>
    rw [walk_atomic hk]
    cases hp : Leaf.pass (none, 0) (n.leaves none []) with
    | error => rfl
    | ok p =>
      have hh : (n.leaves none []).head?.map Leaf.kind = some n.firstLeaf.kind := n.head?_leaves
      have ⟨l, hl, e⟩ := Option.map_eq_some_iff.mp hh
      have hl := (Leaf.pass_zero hp).right l (List.mem_of_head? hl)
      rw [e, Kind.isLeaf, Bool.or_eq_false_iff] at hl
      exact absurd hf (by simp [Node.isText, hl.left])

theorem index_walk_zero {b : Node} (hk : b.isText = false) (hf : Node.Flat b.children)
    (ht : b.firstLeaf.isText) : (walk 0 0 (Node.beatsAll b.children)).index = 0 := by
  rw [Node.firstLeaf_eq] at ht
  cases hc : b.children with
  | nil => simp [hc, Node.firstLeafAmong, hk] at ht
  | cons n after =>
    rw [hc, Node.firstLeafAmong] at ht
    cases hw : n.isWrapper
    case false =>
      have hn := (hf.child n (by simp [hc])).resolve_right (by simp [hw])
      rw [Node.beatsAll_cons_solid hn]
      exact index_walk_zero_solid hn ht
    case true =>
      obtain ⟨i, kind, cs⟩ := n
      cases kind with
      | wrapper styles =>
        cases cs with
        | nil => contradiction
        | cons m cs =>
          have hw : Node.mk i (.wrapper styles) (m :: cs) ∈ b.children := by simp [hc]
          rw [Node.beatsAll_cons_wrapper, List.flatMap_cons, List.append_assoc]
          exact index_walk_zero_solid (hf.inside _ hw rfl m (.head _)) ht
      | _ => contradiction

end Rest

namespace Halt

theorem position_place {halt : Halt} {ids : List NodeId} (h : halt.Among ids) (site : Site)
    (stop : Position) : (halt.place site).position stop = site.before ∨
      (halt.place site).position stop = site.after ∨
        ((halt.place site).position stop).node ∈ ids := by
  cases halt with
  | text => exact h.elim
  | before site? =>
    cases site? with
    | none => exact .inl rfl
    | some s => exact .inr (.inr (h s rfl))
  | after site? =>
    cases site? with
    | none => exact .inr (.inl rfl)
    | some s => exact .inr (.inr (h s rfl))

end Halt

namespace Seat

variable {s : Seat} {b n : Node} {k : Nat}

theorem startInWrapper_spot (h : n.isText) : (s.spot b n k).startInWrapper = s.spot b n k :=
  Spot.startInWrapper_of_not_isWrapper (Node.not_isWrapper_of_isText h)

theorem stopInWrapper_spot (h : n.isText) : (s.spot b n k).stopInWrapper = s.spot b n k :=
  Spot.stopInWrapper_of_not_isWrapper (Node.not_isWrapper_of_isText h)

end Seat

namespace Tree

variable {t : Tree} {block : NodeId} {b n : Node} {p q : Position} {s : Seat} {k : Nat}

-- As an end of a span the first position leads to the second one, in a text. Ends move as either
-- starts or stops do.
def LeadsTo (t : Tree) (b : Node) (move : Spot → Except SpanFault Spot) (p q : Position) : Prop :=
  ∃ u v, t.spot b p = .ok u ∧ move u = .ok v ∧ v.isStyleable ∧ v.position = q

theorem leadsTo_of_endpoints {span : Span} (hb : t.node? block = some b)
    (h : t.endpoints block span = .ok e) :
    t.LeadsTo b Spot.toStart span.start e.start ∧ t.LeadsTo b Spot.toStop span.stop e.stop := by
  rw [endpoints, hb] at h
  obtain ⟨start, hstart, h⟩ := bind_eq_ok.mp h
  obtain ⟨stop, hstop, h⟩ := bind_eq_ok.mp h
  obtain ⟨u, v, hu, hv, hus, hvs, rfl⟩ := Endpoints.moves_of_ofSpots (mapError_eq_ok.mp h)
  exact ⟨⟨start, u, hstart, hu, hus, rfl⟩, stop, v, hstop, hv, hvs, rfl⟩

-- Beside some pieces an end of a span does not stay. Past no char, a start moves on to the front of
-- a text, and a stop back to the end of one.
structure Beside (t : Tree) (b : Node) (p : Position) (k : Nat) : Prop where
  start : ∀ q, t.LeadsTo b Spot.toStart p q → ∃ s n, Perch b q s n ∧ q.offset = 0 ∧
    k ≤ s.lead.length ∧ Piece.Lacks Piece.isChar (b.children.flatMap Node.pieces) k s.lead.length
  stop : ∀ q, t.LeadsTo b Spot.toStop p q → ∃ s n, Perch b q s n ∧ q.offset = n.charCount ∧
    s.lead.length + n.charCount ≤ k ∧
    Piece.Lacks Piece.isChar (b.children.flatMap Node.pieces) (s.lead.length + n.charCount) k

def Rests (t : Tree) (b : Node) (p : Position) : Rest → Prop
  | .within k isEmpty =>
    ∃ s n, Perch b p s n ∧ n.isEmptyText = isEmpty ∧ s.lead.length + p.offset = k
  | .beside k => t.Beside b p k

theorem beside_of_error (h : t.spot b p = .error e) : t.Beside b p k where
  start := by
    rintro q ⟨u, v, hu, -⟩
    cases h.symm.trans hu
  stop := by
    rintro q ⟨u, v, hu, -⟩
    cases h.symm.trans hu

theorem beside_of_spot {before after : List Node} (hf : Node.Flat b.children)
    (hc : b.children = before ++ after) (hp : t.spot b p = .ok u)
    (hs : u.toStart.toOption = (Spot.toStart ⟨⟨b, []⟩, before.length⟩).toOption)
    (ht : u.toStop.toOption = (Spot.toStop ⟨⟨b, []⟩, before.length⟩).toOption) :
    t.Beside b p (before.flatMap Node.pieces).length where
  start := by
    rintro _ ⟨_, v, hp', hv, hvs, rfl⟩
    cases hp.symm.trans hp'
    rw [toOption_eq_some.mpr hv, eq_comm, toOption_eq_some] at hs
    obtain ⟨as, bs, s, n, rfl, ha, hperch, hz, hlead⟩ := perch_toStart_block hvs hc hf hs
    refine ⟨s, n, hperch, hz, by simp [hlead], ?_⟩
    rw [hlead, hc, ← List.append_assoc, List.flatMap_append, List.flatMap_append]
    exact .mid fun _ hq => Node.not_isChar_of_isAtomic ha hq
  stop := by
    rintro _ ⟨_, v, hp', hv, hvs, rfl⟩
    cases hp.symm.trans hp'
    rw [toOption_eq_some.mpr hv, eq_comm, toOption_eq_some] at ht
    obtain ⟨bs, as, s, n, rfl, ha, hperch, hz, hlead⟩ := perch_toStop_block hvs hc hf ht
    have e : s.lead.length + n.charCount = (bs.flatMap Node.pieces).length := by
      rw [← hlead, List.length_append, Seat.seated, List.flatMap_singleton, List.length_map,
        Node.length_items hperch.isText]
    refine ⟨s, n, hperch, hz, by simp [e], ?_⟩
    rw [e, hc, List.flatMap_append, List.flatMap_append]
    exact .mid fun _ hq => Node.not_isChar_of_isAtomic ha hq

section Held

variable {before left right after as : List Node} {i : NodeId} {styles : StyleSet} {u : Spot}

theorem lacks_held (ha : ∀ a ∈ as, a.kind.isAtomic)
    (hc : b.children = before ++ .mk i (.wrapper styles) (left ++ as ++ right) :: after) :
    Piece.Lacks Piece.isChar (b.children.flatMap Node.pieces)
      (Seat.held before i styles left [] []).lead.length
      (Seat.held before i styles (left ++ as) [] []).lead.length := by
  have hq : ∀ q ∈ (as.flatMap Node.items).map (Piece.mk · (some styles)), q.isChar = false := by
    intro q hq
    obtain ⟨item, hi, rfl⟩ := List.mem_map.mp hq
    obtain ⟨a, hm, hi⟩ := List.mem_flatMap.mp hi
    have ht : a.isText = false := Node.not_isText_of_isAtomic (ha a hm)
    rw [Node.items_of_not_isText ht, List.mem_singleton] at hi
    rw [hi]
    rfl
  have e : b.children.flatMap Node.pieces = (Seat.held before i styles left [] []).lead ++
      (as.flatMap Node.items).map (⟨·, some styles⟩) ++
        (Seat.held before i styles (left ++ as) right after).rest := by
    simp [hc, Node.pieces]
  have e' : (Seat.held before i styles (left ++ as) [] []).lead =
      (Seat.held before i styles left [] []).lead ++
        (as.flatMap Node.items).map (⟨·, some styles⟩) := by simp
  rw [e, e']
  exact .mid hq

section Atomic

variable (hn : n.kind.isAtomic)

include hn

theorem not_isStyleable_of_isAtomic (s : Seat) (b : Node) (k : Nat) :
    (s.spot b n k).isStyleable = false := by
  rw [Bool.eq_false_iff]
  intro hs
  simp [Node.not_isAtomic_of_isText (Seat.isText_of_isStyleable hs)] at hn

variable (hc : b.children = before ++ .mk i (.wrapper styles) (left ++ n :: right) :: after)

include hc

theorem beside_before_held (hp : t.spot b p = .ok ((Seat.bare before after).spot b
    (.mk i (.wrapper styles) (left ++ n :: right)) left.length)) :
    t.Beside b p (Seat.held before i styles left right after).lead.length where
  start := by
    rintro _ ⟨_, v, hp', hv, hvs, rfl⟩
    cases hp.symm.trans hp'
    cases Seat.toStart_held.symm.trans hv
    simp [not_isStyleable_of_isAtomic hn] at hvs
  stop := by
    rintro _ ⟨_, v, hp', hv, hvs, rfl⟩
    cases hp.symm.trans hp'
    obtain rfl | ⟨left, m, rfl⟩ := left.eq_nil_or_concat
    case inl =>
      cases Seat.toStop_front.symm.trans hv
      simp [not_isStyleable_of_isAtomic hn] at hvs
    case inr =>
      rw [List.concat_eq_append] at hc hv ⊢
      rw [List.append_assoc, List.singleton_append] at hc hv
      rw [List.length_append, List.length_singleton] at hv
      cases Seat.toStop_held.symm.trans hv
      have ht := Seat.isText_of_isStyleable hvs
      have he := Node.extent_of_isText ht
      have e : (Seat.held before i styles (left ++ [m]) right after).lead.length =
          (Seat.held before i styles left (n :: right) after).lead.length + m.charCount := by
        simp [Node.length_items ht, Nat.add_assoc]
      exact ⟨.held before i styles left (n :: right) after, m,
        ⟨by simpa using hc, ht, rfl, Nat.le_of_eq he⟩, he, Nat.le_of_eq e.symm,
        .empty (Nat.le_of_eq e)⟩

theorem beside_after_held (hp : t.spot b p = .ok ((Seat.bare before after).spot b
    (.mk i (.wrapper styles) (left ++ n :: right)) (left.length + 1))) :
    t.Beside b p (Seat.held before i styles left right after).lead.length where
  start := by
    rintro _ ⟨_, v, hp', hv, hvs, rfl⟩
    cases hp.symm.trans hp'
    have hl : left.length + 1 = (left ++ [n]).length := by simp
    rw [hl] at hv
    cases right with
    | nil =>
      cases Seat.toStart_end.symm.trans hv
      simp [not_isStyleable_of_isAtomic hn] at hvs
    | cons m right =>
      have e : left ++ n :: m :: right = left ++ [n] ++ m :: right := by simp
      rw [e] at hc hv
      cases Seat.toStart_held.symm.trans hv
      exact ⟨.held before i styles (left ++ [n]) right after, m,
        ⟨by simpa using hc, Seat.isText_of_isStyleable hvs, rfl, Nat.zero_le _⟩, rfl, by simp,
        lacks_held (by simpa using hn) hc⟩
  stop := by
    rintro _ ⟨_, v, hp', hv, hvs, rfl⟩
    cases hp.symm.trans hp'
    cases Seat.toStop_held.symm.trans hv
    simp [not_isStyleable_of_isAtomic hn] at hvs

theorem beside_on_held (hf : Node.Flat b.children)
    (hp : t.spot b p = .ok ((Seat.held before i styles left right after).spot b n k)) :
    t.Beside b p (Seat.held before i styles left right after).lead.length where
  start := by
    rintro _ ⟨_, v, hp', hv, hvs, rfl⟩
    cases hp.symm.trans hp'
    have ⟨v₁, h₁, hv⟩ := bind_eq_ok.mp hv
    have ⟨v₂, h₂, hv⟩ := bind_eq_ok.mp hv
    cases (Spot.startInBlock_of_not_isBlock Seat.isBlock_spot).symm.trans h₁
    obtain ⟨s', as, m, hs, ha, hm, rfl⟩ := Seat.exists_of_startPastAtoms hn h₂
    cases s' with
    | bare => contradiction
    | held _ _ _ _ right' =>
      cases hs
      have hc' : b.children = before ++ .mk i (.wrapper styles) (left ++ n :: as ++ m :: right') ::
          after := by simpa using hc
      have ht : m.isText := by
        have hw : .mk i (.wrapper styles) (left ++ n :: as ++ m :: right') ∈ b.children := by
          simp [hc']
        exact (Node.solid_iff.mp (hf.inside _ hw rfl m (by simp))).resolve_right (by simp [hm])
      rw [Seat.startInWrapper_spot ht] at hv
      cases hv
      exact ⟨.held before i styles (left ++ n :: as) right' after, m,
        ⟨by simpa using hc', ht, rfl, Nat.zero_le _⟩, rfl, by simp, lacks_held ha hc'⟩
  stop := by
    rintro _ ⟨_, v, hp', hv, hvs, rfl⟩
    cases hp.symm.trans hp'
    have ⟨v₁, h₁, hv⟩ := bind_eq_ok.mp hv
    have ⟨v₂, h₂, hv⟩ := bind_eq_ok.mp hv
    cases (Spot.stopInBlock_of_not_isBlock Seat.isBlock_spot).symm.trans h₁
    obtain ⟨s', as, m, hs, ha, hm, rfl⟩ := Seat.exists_of_stopPastAtoms hn h₂
    cases s' with
    | bare => contradiction
    | held _ _ _ left' =>
      cases hs
      have hc' : b.children = before ++
          .mk i (.wrapper styles) (left' ++ [m] ++ as ++ n :: right) :: after := by simpa using hc
      have ht : m.isText := by
        have hw : .mk i (.wrapper styles) (left' ++ [m] ++ as ++ n :: right) ∈ b.children := by
          simp [hc']
        exact (Node.solid_iff.mp (hf.inside _ hw rfl m (by simp))).resolve_right (by simp [hm])
      have he := Node.extent_of_isText ht
      rw [Seat.stopInWrapper_spot ht] at hv
      cases hv
      have e : (Seat.held before i styles left' right after).lead.length + m.charCount =
          (Seat.held before i styles (left' ++ [m]) right after).lead.length := by
        simp [Node.length_items ht, Nat.add_assoc]
      have hlacks := lacks_held (fun a hm => ha a (by simp [hm])) hc'
      refine ⟨.held before i styles left' (as ++ n :: right) after, m,
        ⟨by simpa using hc', ht, rfl, Nat.le_of_eq he⟩, he, ?_, ?_⟩
      · simp [Node.length_items ht]
        omega
      · simpa [Node.length_items ht, Nat.add_assoc] using hlacks

end Atomic

end Held

section Block

variable (wf : t.WellFormed) (hb : t.node? block = some b) (hk : b.kind.isLeaf = false)
  (hf : Node.Flat b.children)

include hk hf in
theorem beside_block {before after : List Node} (hc : b.children = before ++ after) :
    t.Beside b ⟨b.id, before.length⟩ (before.flatMap Node.pieces).length := by
  cases hp : t.spot b ⟨b.id, before.length⟩ with
  | error => exact beside_of_error hp
  | ok u =>
    have e := spot_eq_of_block hp (Node.not_isText_of_not_isLeaf hk) (by simp [hc])
    exact beside_of_spot hf hc hp (e ▸ rfl) (e ▸ rfl)

include wf hb hk hf

section Atomic

variable (hn : n.kind.isAtomic) (he : n.kind.isLeaf → n.children = [])

include hn he

omit hk hf in
theorem spot_atomic (hc : b.children = s.plug [n]) (hi : p.node ∈ n.ids) :
    (∃ k, t.spot b p = .ok (s.spot b n k)) ∨ ∃ error, t.spot b p = .error error := by
  obtain ⟨i, k⟩ := p
  rw [Node.ids_eq, List.mem_cons] at hi
  obtain rfl | hi := hi
  case inl => exact .inl ⟨_, wf.spot_seat_min hb hc k⟩
  case inr =>
    have hm : n ∈ Node.preorderAll b.children := hc ▸ Seat.mem_preorderAll_plug (.head _)
    have hk : n.kind.isEmbed := by
      cases hb : n.kind.isBreak
      case false => simpa [Kind.isAtomic, hb] using hn
      case true => simp [he (by simp [Kind.isLeaf, hb])] at hi
    exact .inr (wf.spot_beneath hb hm hk hi k)

theorem beside_halt (hc : b.children = s.plug [n]) {halt : Halt} (ha : halt.Among n.ids)
    (stop : Position) :
    t.Beside b ((halt.place (s.site b.id)).position stop) s.lead.length := by
  have hp := Halt.position_place ha (s.site b.id) stop
  generalize (halt.place (s.site b.id)).position stop = p at hp
  cases s with
  | bare before after =>
    have hc' : b.children = before ++ n :: after := by simpa using hc
    obtain rfl | rfl | hi := hp
    case inl => exact beside_block hk hf hc'
    case inr.inl =>
      cases hp : t.spot b (Site.after ⟨b.id, before.length⟩) with
      | error => exact beside_of_error hp
      | ok u =>
        have e := spot_eq_of_block hp (Node.not_isText_of_not_isLeaf hk) (by simp [hc'])
        exact beside_of_spot hf hc' hp (e ▸ (Seat.toOption_toStart_atomic hc' hn).symm)
          (e ▸ Seat.toOption_toStop_atomic hc' hn)
    case inr.inr =>
      obtain ⟨k, hp⟩ | ⟨_, hp⟩ := spot_atomic wf hb hn he hc hi
      case inr => exact beside_of_error hp
      case inl =>
        refine beside_of_spot hf hc' hp ?_ ?_
        · rw [Seat.toStart_atomic hn, ← Seat.toStart_block_eq hc']
        · rw [Seat.toStop_atomic hn, ← Seat.toStop_block_eq hc', Seat.toOption_toStop_atomic hc' hn]
  | held before i styles left right after =>
    have hc' : b.children = before ++ .mk i (.wrapper styles) (left ++ n :: right) :: after := by
      simpa using hc
    have hspot (k : Nat) (hk : k ≤ (left ++ n :: right).length) := wf.spot_seat
      (s := .bare before after) (n := .mk i (.wrapper styles) (left ++ n :: right)) (k := k) hb
      (by simpa using hc') (by simpa [Node.extent, Node.isText, Kind.isText] using hk)
    obtain rfl | rfl | hi := hp
    case inl => exact beside_before_held hn hc' (hspot _ (by simp [Seat.site]))
    case inr.inl => exact beside_after_held hn hc' (hspot _ (by simp [Seat.site]))
    case inr.inr =>
      obtain ⟨k, hp⟩ | ⟨_, hp⟩ := spot_atomic wf hb hn he hc hi
      case inr => exact beside_of_error hp
      case inl => exact beside_on_held hn hc' hf hp

end Atomic

section Walk

variable (hl : Node.LeavesEmptyAll b.children) {stop : Position} {rest : List Leaf}
  {bs : List (Option Piece)}

include hl

theorem rests_walk_solid (hc : b.children = s.plug [n]) (hn : n.Solid)
    (hi : ∀ l ∈ rest, ∀ island ∈ l.islands, island.id ∉ n.ids)
    (hnext : ∀ r, t.Rests b (Leaf.seek stop none r rest)
      (Rest.walk (s.lead.length + n.items.length) r bs)) (r : Nat) :
    t.Rests b (Leaf.seek stop none r (n.leaves (some (s.site b.id)) [] ++ rest))
      (Rest.walk s.lead.length r (n.beats s.host ++ bs)) := by
  have he : n.kind.isLeaf → n.children = [] :=
    hl n (hc ▸ Seat.mem_preorderAll_plug (.head _))
  obtain ht | ha := Node.solid_iff.mp hn
  case inl =>
    have ⟨text, hk⟩ := Node.isText_iff.mp ht
    have hcs := he (by simp [hk, Kind.isLeaf, Kind.isText])
    have hlen : n.charCount = text.length := by
      rw [Node.charCount_of_isText ht, hk]
      rfl
    have hleaves : n.leaves (some (s.site b.id)) [] =
        [⟨n.id, .text text, some (s.site b.id), []⟩] := by
      obtain ⟨i, k, cs⟩ := n
      simp only [Node.children_mk, Node.kind_mk] at hcs hk
      subst hcs hk
      rfl
    have hstep : Leaf.step (none, r) ⟨n.id, .text text, some (s.site b.id), []⟩ =
        if r ≤ text.length then .error (.text n.id r) else .ok (none, r - text.length) := rfl
    rw [hleaves, List.singleton_append, Leaf.seek_cons (p := (none, r)), hstep, Rest.walk_text ht,
      hlen]
    split_ifs with hle
    case pos => exact ⟨s, n, ⟨hc, ht, rfl, hlen.symm ▸ hle⟩, rfl, rfl⟩
    case neg => exact hlen ▸ Node.length_items ht ▸ hnext _
  case inr =>
    rw [Leaf.seek_append (p := (none, r)), Rest.walk_atomic ha]
    have hpass := n.pass_leaves (none, r) (s.site b.id)
    cases hp : Leaf.pass (none, r) (n.leaves none []) with
    | error halt =>
      rw [hpass, hp]
      exact beside_halt wf hb hk hf ha he hc (Node.among_of_pass ha he hp) stop
    | ok p =>
      rw [hp] at hpass
      have hq : ∀ i ∈ p.1, i ∈ n.ids := by
        refine Leaf.fst_of_pass (p := (none, r)) nofun (fun l hl island hm => ?_) hpass
        exact ((Node.mem_islands_leaves n hl hm).resolve_left List.not_mem_nil).left
      have hseek : Leaf.seek stop p.1 p.2 rest = Leaf.seek stop none p.2 rest := by
        obtain ⟨_ | i, r⟩ := p
        case none => rfl
        case some => exact Leaf.seek_left fun l hl island hm e => hi l hl island hm (e ▸ hq i rfl)
      have hlen : n.items.length = 1 := by
        rw [Node.items_of_not_isText (Node.not_isText_of_isAtomic ha), List.length_singleton]
      rw [hpass]
      simp only [Except.mapError]
      rw [hseek]
      exact hlen ▸ hnext p.2

theorem rests_walk_held {before left right after : List Node} {i : NodeId} {styles : StyleSet}
    (hc : b.children = before ++ .mk i (.wrapper styles) (left ++ right) :: after)
    (hd : (Node.idsAll right).Nodup)
    (hi : ∀ l ∈ rest, ∀ island ∈ l.islands, island.id ∉ Node.idsAll right)
    (hnext : ∀ r, t.Rests b (Leaf.seek stop none r rest) (Rest.walk
      (Seat.held before i styles (left ++ right) [] []).lead.length r bs)) (r : Nat) :
    t.Rests b (Leaf.seek stop none r (Node.leavesAmong i left.length [] right ++ rest))
      (Rest.walk (Seat.held before i styles left [] []).lead.length r
        (right.flatMap (Node.beats (some styles)) ++ bs)) := by
  induction right generalizing left r with
  | nil =>
    rw [List.append_nil] at hnext
    exact hnext r
  | cons n right ih =>
    have hw : Node.mk i (.wrapper styles) (left ++ n :: right) ∈ b.children := by simp [hc]
    have hseat : b.children = (Seat.held before i styles left right after).plug [n] := by
      simpa using hc
    have e : left ++ n :: right = left ++ [n] ++ right := by simp
    rw [Node.idsAll_cons, List.nodup_append] at hd
    simp only [Node.idsAll_cons, List.mem_append, not_or] at hi
    rw [Node.leavesAmong, List.flatMap_cons, List.append_assoc, List.append_assoc]
    refine rests_walk_solid wf hb hk hf hl hseat (hf.inside _ hw rfl n (by simp)) ?_ (fun r => ?_) r
    case refine_1 =>
      intro l hm island hs hn
      cases List.mem_append.mp hm
      case inl hm =>
        have hs := (Node.mem_islands_leavesAmong right hm hs).resolve_left List.not_mem_nil
        exact hd.right.right _ hn _ hs.left rfl
      case inr hm => exact (hi l hm island hs).left hn
    case refine_2 =>
      have hc : b.children = before ++ .mk i (.wrapper styles) (left ++ [n] ++ right) :: after :=
        e ▸ hc
      have ih := ih hc hd.right.left (fun l hm island hs => (hi l hm island hs).right) (e ▸ hnext) r
      simpa [Nat.add_assoc] using ih

-- The walk through the leaves of a block comes to rest where the one through its pieces does.
theorem rests_walk {before after : List Node} (hc : b.children = before ++ after)
    (hd : (Node.idsAll after).Nodup) (r : Nat) :
    t.Rests b (Leaf.seek ⟨b.id, b.children.length⟩ none r
      (Node.leavesAmong b.id before.length [] after))
      (Rest.walk (before.flatMap Node.pieces).length r (Node.beatsAll after)) := by
  induction after generalizing before r with
  | nil =>
    have hlen : b.children.length = before.length := by simp [hc]
    rw [hlen]
    exact beside_block hk hf hc
  | cons n after ih =>
    have hc' : b.children = before ++ [n] ++ after := by simpa using hc
    have hseat : b.children = (Seat.bare before after).plug [n] := by simpa using hc
    rw [Node.idsAll_cons, List.nodup_append] at hd
    have hnext := ih hc' hd.right.left
    rw [List.length_append, List.length_singleton, List.flatMap_append, List.flatMap_singleton,
      List.length_append] at hnext
    have hi : ∀ l ∈ Node.leavesAmong b.id (before.length + 1) [] after, ∀ island ∈ l.islands,
        island.id ∉ n.ids := by
      intro l hm island hs hn
      have hs := (Node.mem_islands_leavesAmong after hm hs).resolve_left List.not_mem_nil
      exact hd.right.right _ hn _ hs.left rfl
    rw [Node.leavesAmong]
    cases hw : n.isWrapper
    case false =>
      have hn := (hf.child n (by simp [hc])).resolve_right (by simp [hw])
      rw [Node.beatsAll_cons_solid hn]
      refine rests_walk_solid wf hb hk hf hl hseat hn hi (fun r => ?_) r
      simpa [Node.pieces_of_not_isWrapper hw] using hnext r
    case true =>
      obtain ⟨i, kind, cs⟩ := n
      cases kind with
      | wrapper styles =>
        rw [Node.beatsAll_cons_wrapper]
        cases cs with
        | nil => exact hnext r
        | cons m cs =>
          have hdn : (Node.idsAll (m :: cs)).Nodup := by
            have := hd.left
            rw [Node.ids_mk, List.nodup_cons] at this
            exact this.right
          have hin : ∀ l ∈ Node.leavesAmong b.id (before.length + 1) [] after, ∀ island ∈ l.islands,
              island.id ∉ Node.idsAll (m :: cs) :=
            fun l hm island hs hn => hi l hm island hs (Node.ids_mk .. ▸ .tail _ hn)
          have hc₀ : b.children = before ++ .mk i (.wrapper styles) ([] ++ m :: cs) :: after := hc
          have hlead : (before.flatMap Node.pieces).length =
              (Seat.held before i styles [] [] []).lead.length := by simp
          rw [hlead]
          refine rests_walk_held wf hb hk hf hl hc₀ hdn hin (fun r => ?_) r
          simpa [Node.pieces] using hnext r
      | _ => contradiction

theorem rests_resolve_walk {o : Nat} (ho : o = 0 → b.firstLeaf.isText) :
    t.Rests b (t.resolve block o) (Rest.walk 0 o (Node.beatsAll b.children)) := by
  have hd := wf.nodup_ids hb
  rw [Node.ids_eq, List.nodup_cons] at hd
  rw [resolve_of_firstLeaf hb hk ho]
  have hi := id_of_node? hb
  subst hi
  have hc : b.children = [] ++ b.children := rfl
  exact rests_walk wf hb hk hf hl hc hd.right o

theorem rests_resolve_zero : ∃ r : Rest, r.index = 0 ∧ t.Rests b (t.resolve block 0) r := by
  cases ht : b.firstLeaf.isText
  case true =>
    exact ⟨_, Rest.index_walk_zero (Node.not_isText_of_not_isLeaf hk) hf ht,
      rests_resolve_walk wf hb hk hf hl fun _ => ht⟩
  case false =>
    rw [resolve_zero hb hk ht, ← id_of_node? hb]
    have hc : b.children = [] ++ b.children := rfl
    exact ⟨.beside 0, rfl, beside_block hk hf hc⟩

end Walk

end Block

end Tree

end RichText
