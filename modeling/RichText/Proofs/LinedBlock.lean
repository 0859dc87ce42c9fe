import RichText.Proofs.Limits
import RichText.Proofs.Passage

namespace RichText

inductive Shape where
  | char
  -- A break or an embed among the children of the block.
  | bare (n : Node)
  -- A break in a wrapper.
  | held (n : Node)

namespace Piece

def shape (p : Piece) : Shape :=
  match p.item, p.host with
  | .char _, _ => .char
  | .node n, none => .bare n
  | .node n, some _ => .held n

@[simp]
theorem shape_addStyle (tag : String) (p : Piece) : (p.addStyle tag).shape = p.shape := by
  have ⟨item, host⟩ := p
  cases item with
  | char => rfl
  | node => cases host <;> rfl

end Piece

namespace Shape

-- The offset of the first char, if only breaks and embeds of the block come before it.
def first? (o : Nat) : List Shape → Option Nat
  | [] | held _ :: _ => none
  | char :: _ => some o
  | bare n :: ss => first? (o + n.charCount) ss

-- From beside a break or an embed of the block an end leads on, but not from deep within.
def beside (stuck : Bool) (n : Node) (e : Limits) : Halt → Limits
  | .text _ _ => .lost
  | .before none | .after none => if stuck then .lost else e
  | .before (some s) | .after (some s) => if s.parent = n.id then e else .lost

-- The walk from an offset of a block on, as it looks from the pieces. A stop at that offset would
-- lead to the given one. A stuck block is in an embed, and nothing leads on from it.
def walk (stuck : Bool) (o : Nat) (stop? : Option Nat) (p : Leaf.Progress) : List Shape → Limits
  | [] => if stuck then .lost else ⟨none, stop?⟩
  | char :: ss =>
    if p.2 ≤ 1 then .text (o + p.2) else walk stuck (o + 1) (some (o + 1)) (none, p.2 - 1) ss
  | bare n :: ss =>
    match Leaf.pass p (n.leaves none []) with
    | .error h => beside stuck n ⟨first? (o + n.charCount) ss, stop?⟩ h
    | .ok p => walk stuck (o + n.charCount) stop? p ss
  | held _ :: ss => if p.2 = 0 then .lost else walk stuck (o + 1) none (none, p.2 - 1) ss

def startsInText : List Shape → Bool
  | [] | held _ :: _ => false
  | char :: _ => true
  | bare n :: _ => n.firstLeaf.isText

def limits (stuck : Bool) (ss : List Shape) (offset : Nat) : Limits :=
  if offset = 0 ∧ ¬startsInText ss then
    if stuck then .lost else ⟨first? 0 ss, none⟩
  else walk stuck 0 none (none, offset) ss

variable {stuck : Bool} {o : Nat} {stop? : Option Nat} {p : Leaf.Progress} {ss : List Shape}

theorem walk_text (k : Nat) :
    walk stuck o stop? p (List.replicate (k + 1) char ++ ss) =
      if p.2 ≤ k + 1 then .text (o + p.2)
      else walk stuck (o + (k + 1)) (some (o + (k + 1))) (none, p.2 - (k + 1)) ss := by
  induction k generalizing o stop? p with
  | zero => rfl
  | succ k ih =>
    rw [List.replicate_succ, List.cons_append, walk, ih]
    by_cases h : p.2 ≤ 1
    case pos => rw [if_pos h, if_pos (by omega)]
    case neg =>
      have ht : o + 1 + (p.2 - 1) = o + p.2 := by omega
      have ho : o + 1 + (k + 1) = o + (k + 1 + 1) := by omega
      have hp : p.2 - 1 - (k + 1) = p.2 - (k + 1 + 1) := by omega
      rw [if_neg h, ht, ho, hp]
      exact if_congr (by omega) rfl rfl

end Shape

namespace Node

theorem firstLeaf_eq (n : Node) : n.firstLeaf = firstLeafAmong n n.children := by
  cases n
  rfl

def shapes (ns : List Node) : List Shape :=
  (ns.flatMap pieces).map Piece.shape

def heldShapes (ns : List Node) : List Shape :=
  ns.flatMap fun n => if n.isText then List.replicate n.charCount .char else [.held n]

variable {n : Node} {ns : List Node}

theorem heldShapes_cons (n : Node) (ns : List Node) : heldShapes (n :: ns) =
    (if n.isText then List.replicate n.charCount .char else [.held n]) ++ heldShapes ns :=
  List.flatMap_cons

theorem shapes_cons (n : Node) (ns : List Node) :
    shapes (n :: ns) = n.pieces.map Piece.shape ++ shapes ns := by
  simp [shapes]

theorem shape_text (ht : n.isText) (host : Option StyleSet) :
    (n.items.map (Piece.mk · host)).map Piece.shape = List.replicate n.charCount .char := by
  have ⟨s, hs⟩ := isText_iff.mp ht
  rw [← length_items ht, items_text hs]
  exact List.eq_replicate_iff.mpr ⟨by simp, by simp [Piece.shape]⟩

theorem shapes_text (ht : n.isText) :
    shapes (n :: ns) = List.replicate n.charCount .char ++ shapes ns := by
  rw [shapes_cons, Seat.pieces_of_isText ht, shape_text ht]

theorem shapes_atomic (hk : n.kind.isAtomic) : shapes (n :: ns) = .bare n :: shapes ns := by
  have ⟨i, k, cs⟩ := n
  cases k <;> first | rfl | contradiction

theorem shapes_wrapper {i : NodeId} {styles : StyleSet} {cs : List Node} :
    shapes (.mk i (.wrapper styles) cs :: ns) = heldShapes cs ++ shapes ns := by
  rw [shapes_cons, pieces_wrapper rfl, children_mk, List.map_flatMap, List.map_flatMap]
  refine congrArg (· ++ _) (List.flatMap_congr fun m _ => ?_)
  split
  case isTrue ht => exact shape_text ht _
  case isFalse ht =>
    rw [items_of_not_isText (by simpa using ht)]
    rfl

end Node

-- A block of flat content in canonical form whose wrappers hold texts and breaks, none of them
-- trailing.
structure LinedBlock (t : Tree) (block : NodeId) (b : Node) : Prop where
  wf : t.WellFormed
  node : t.node? block = some b
  not_isLeaf : b.kind.isLeaf = false
  leaves : Node.LeavesEmptyAll b.children
  flat : Canonical.IsFlat b.children
  lined : ∀ w ∈ b.children, w.isWrapper → ∀ n ∈ w.children, n.isText ∨ n.kind = .lineBreak false

namespace LinedBlock

variable {t : Tree} {block : NodeId} {b n m : Node} {s : Seat} {k : Nat}

theorem not_isText (h : LinedBlock t block b) : b.isText = false :=
  Node.not_isText_of_not_isLeaf h.not_isLeaf

section Seat

variable (h : LinedBlock t block b) (hc : b.children = s.plug [n])

include h hc

theorem exists_charCount (ht : n.isText) : ∃ k, n.charCount = k + 1 := by
  have he := h.flat.canonical.not_isEmptyText hc
  exact Nat.exists_eq_add_one.mpr (Node.charCount_of_isText_pos ht (Node.items_ne_nil he))

theorem leaves_eq (hk : n.kind.isLeaf) (site? : Option Site) :
    n.leaves site? [] = [⟨n.id, n.kind, site?, []⟩] := by
  have hcs : n.children = [] := h.leaves n (hc ▸ Seat.mem_preorderAll_plug (.head _)) hk
  have ⟨i, k, cs⟩ := n
  rw [Node.children_mk] at hcs
  subst hcs
  rfl

theorem firstLeaf_eq_self (hk : n.kind.isLeaf) : n.firstLeaf = n := by
  have hcs : n.children = [] := h.leaves n (hc ▸ Seat.mem_preorderAll_plug (.head _)) hk
  rw [Node.firstLeaf_eq, hcs, Node.firstLeafAmong]

theorem styled_seat (hk : n.isText → k ≤ n.charCount) : (s.spot b n k).styled? t block =
    if n.isText then some (Piece.total s.lead + k) else none := by
  split
  case isTrue ht =>
    have hp : Tree.Perch b ⟨n.id, k⟩ s n := ⟨hc, ht, rfl, hk ht⟩
    rw [Spot.styled?, if_pos (Seat.isStyleable_spot ht)]
    exact congrArg some (hp.offsetOf h.wf h.node h.not_isLeaf)
  case isFalse ht => exact if_neg fun hs => ht (Seat.isText_of_isStyleable hs)

theorem styled_front : (s.spot b n 0).styled? t block =
    if n.isText then some (Piece.total s.lead) else none :=
  h.styled_seat hc fun _ => Nat.zero_le _

theorem styled_back : (s.spot b n n.extent).styled? t block =
    if n.isText then some (Piece.total s.lead + n.charCount) else none := by
  rw [h.styled_seat hc fun ht => Nat.le_of_eq (Node.extent_of_isText ht)]
  split
  case isTrue ht => rw [Node.extent_of_isText ht]
  case isFalse => rfl

theorem limits_text (ht : n.isText) (hk : k ≤ n.charCount) :
    t.limits block ⟨n.id, k⟩ = .text (Piece.total s.lead + k) := by
  have hs : t.spot b ⟨n.id, k⟩ = .ok (s.spot b n k) :=
    h.wf.spot_seat h.node hc (Node.extent_of_isText ht ▸ hk)
  rw [Tree.limits_of_spot h.node hs, Spot.limits, Seat.toStart_spot ht, Seat.toStop_spot ht]
  simp [Except.toOption, h.styled_seat hc fun _ => hk, ht, Limits.text]

end Seat

theorem limits_block (h : LinedBlock t block b) (hk : k ≤ b.children.length) :
    t.limits block ⟨block, k⟩ = if (t.embedBelow? block block).isSome then .lost
      else t.limitsAt block b k := by
  have hi := Tree.id_of_node? h.node
  cases he : t.embedBelow? block block with
  | none => exact Tree.limits_of_spot h.node (Tree.spot_of_block h.node h.not_isText he hk)
  | some e =>
    cases hs : t.spot b ⟨block, k⟩ with
    | error => exact Tree.limits_of_error h.node hs
    | ok u =>
      rw [Tree.spot] at hs
      split at hs
      case h_1 => contradiction
      case h_2 => simp [hi, he] at hs

section Children

variable {before after left right : List Node} {i : NodeId} {styles : StyleSet}

theorem limits_atomic (h : LinedBlock t block b) (hc : b.children = before ++ n :: after)
    (hk : n.kind.isAtomic) (k : Nat) :
    t.limits block ⟨n.id, k⟩ = t.limitsPast block b before.length := by
  have hp : b.children = (Seat.bare before after).plug [n] := by simpa using hc
  rw [Tree.limits_of_spot h.node (h.wf.spot_seat_min h.node hp k), Tree.limitsPast,
    ← Tree.start_limitsAt_atomic hc hk, ← Tree.stop_limitsAt_atomic hc hk, Spot.limits,
    Seat.toStart_atomic hk, Seat.toStop_atomic hk, ← Seat.toStart_block_eq hc,
    ← Seat.toStop_block_eq hc]
  rfl

theorem limits_beside (h : LinedBlock t block b) (hc : b.children = before ++ n :: after)
    (hk : n.kind.isAtomic) {halt : Halt} (ha : halt.Among n.ids) (stop : Position) :
    t.limits block ((halt.place ⟨block, before.length⟩).position stop) =
      Shape.beside (t.embedBelow? block block).isSome n (t.limitsPast block b before.length)
        halt := by
  have hlen : before.length + 1 ≤ b.children.length := by simp [hc]
  have within (s : Site) (hs : s.parent ∈ n.ids) (k : Nat) :
      t.limits block ⟨s.parent, k⟩ =
        if s.parent = n.id then t.limitsPast block b before.length else .lost := by
    split
    case isTrue e => rw [e, h.limits_atomic hc hk]
    case isFalse hne =>
      have hn : n ∈ b.children := by simp [hc]
      have hi : s.parent ∈ Node.idsAll n.children := by
        rw [Node.ids_eq] at hs
        exact (List.mem_cons.mp hs).resolve_left hne
      have he : n.kind.isEmbed := by
        cases hb : n.kind.isBreak
        case false => simpa [Kind.isAtomic, hb] using hk
        case true =>
          have hcs : n.children = [] :=
            h.leaves n (Node.mem_preorderAll_of_mem hn) (by simp [Kind.isLeaf, hb])
          simp [hcs] at hi
      exact h.wf.limits_beneath h.node (Node.mem_preorderAll_of_mem hn) he hi k
  cases halt with
  | text => exact ha.elim
  | before site? =>
    cases site? with
    | none =>
      refine (h.limits_block (Nat.le_of_succ_le hlen)).trans (if_congr Iff.rfl rfl ?_)
      exact Limits.ext (Tree.start_limitsAt_atomic hc hk) rfl
    | some s => exact within s (ha s rfl) _
  | after site? =>
    cases site? with
    | none =>
      refine (h.limits_block hlen).trans (if_congr Iff.rfl rfl ?_)
      exact Limits.ext rfl (Tree.stop_limitsAt_atomic hc hk)
    | some s => exact within s (ha s rfl) _

variable (h : LinedBlock t block b)

include h

section Text

variable (hc : b.children = before ++ n :: after) (ht : n.isText)

include hc ht

theorem start_limitsAt_text : (t.limitsAt block b before.length).start =
    some (Piece.total (before.flatMap Node.pieces)) := by
  have hs : ((Seat.bare before after).spot b n 0).styled? t block = _ :=
    h.styled_front (by simpa using hc)
  rw [Tree.limitsAt, Spot.limits, Seat.toStart_block_eq hc, Seat.toStart_spot ht]
  exact hs.trans (if_pos ht)

theorem stop_limitsAt_text : (t.limitsAt block b (before.length + 1)).stop =
    some (Piece.total (before.flatMap Node.pieces) + n.charCount) := by
  have hs : ((Seat.bare before after).spot b n n.extent).styled? t block = _ :=
    h.styled_back (by simpa using hc)
  rw [Tree.limitsAt, Spot.limits, Seat.toStop_block_eq hc, Seat.toStop_spot ht]
  exact hs.trans (if_pos ht)

end Text

theorem start_limitsAt_wrapper
    (hc : b.children = before ++ .mk i (.wrapper styles) (n :: right) :: after) :
    (t.limitsAt block b before.length).start =
      if n.isText then some (Piece.total (before.flatMap Node.pieces)) else none := by
  have hs : ((Seat.held before i styles [] right after).spot b n 0).styled? t block = _ :=
    h.styled_front (by simpa using hc)
  have e : Spot.toStart ⟨⟨b, []⟩, before.length⟩ =
      .ok ((Seat.held before i styles [] right after).spot b n 0) := by
    have hc : b.children = before ++ [] ++ .mk i (.wrapper styles) (n :: right) :: after := by
      simpa using hc
    simpa using Seat.toStart_block_held (List.forall_mem_nil _) hc
  rw [Tree.limitsAt, Spot.limits, e]
  simpa [Except.toOption] using hs

theorem stop_limitsAt_wrapper
    (hc : b.children = before ++ .mk i (.wrapper styles) (left ++ [n]) :: after) :
    (t.limitsAt block b (before.length + 1)).stop = if n.isText then
      some (Piece.total (Seat.held before i styles (left ++ [n]) [] after).lead) else none := by
  have hs : ((Seat.held before i styles left [] after).spot b n n.extent).styled? t block = _ :=
    h.styled_back (by simpa using hc)
  have e : Spot.toStop ⟨⟨b, []⟩, before.length + 1⟩ =
      .ok ((Seat.held before i styles left [] after).spot b n n.extent) := by
    rw [Seat.toStop_block_eq hc]
    exact congrArg Except.ok Seat.stopInWrapper_held
  rw [Tree.limitsAt, Spot.limits, e]
  simpa [Except.toOption, Node.total_items, Nat.add_assoc] using hs

theorem limits_held
    (hc : b.children = before ++ .mk i (.wrapper styles) (left ++ n :: right) :: after)
    (hn : n.isText = false) (hl : ∀ m ∈ left.getLast?, m.isText = false) :
    t.limits block ⟨i, left.length⟩ = .lost := by
  have hw : b.children = (Seat.bare before after).plug
      [.mk i (.wrapper styles) (left ++ n :: right)] := by simpa using hc
  have hk : left.length ≤ (Node.mk i (.wrapper styles) (left ++ n :: right)).extent := by
    simp [Node.extent, Node.isText, Kind.isText]
  have hs : t.spot b ⟨i, left.length⟩ = _ := h.wf.spot_seat h.node hw hk
  have hstart : ((Seat.held before i styles left right after).spot b n 0).styled? t block = _ :=
    h.styled_front (by simpa using hc)
  rw [Tree.limits_of_spot h.node hs, Spot.limits, Seat.toStart_held]
  obtain rfl | ⟨left, m, rfl⟩ := left.eq_nil_or_concat
  case inl =>
    have e : ((Seat.bare before after).spot b (.mk i (.wrapper styles) ([] ++ n :: right))
      0).toStop = _ := Seat.toStop_front
    simp only [List.length_nil, e]
    simp [Except.toOption, hstart, hn, Limits.lost]
  case inr =>
    rw [List.concat_eq_append] at *
    have hm : m.isText = false := hl m (by simp)
    have hstop : ((Seat.held before i styles left (n :: right) after).spot b m m.extent).styled? t
        block = _ := h.styled_back (by simpa using hc)
    have e : ((Seat.bare before after).spot b (.mk i (.wrapper styles) (left ++ m :: n :: right))
      (left.length + 1)).toStop = _ := Seat.toStop_held
    simp [Except.toOption, hstart, hn, hm, hstop, e, Limits.lost]

theorem start_eq_first? (hc : b.children = before ++ after) :
    (t.limitsAt block b before.length).start =
      Shape.first? (Piece.total (before.flatMap Node.pieces)) (Node.shapes after) := by
  induction after generalizing before with
  | nil =>
    rw [List.append_nil] at hc
    exact hc ▸ Tree.start_limitsAt_end
  | cons n after ih =>
    obtain ht | hk | hw := h.flat.child n (by simp [hc])
    case inl =>
      have hseat : b.children = (Seat.bare before after).plug [n] := by simpa using hc
      have ⟨k, e⟩ := h.exists_charCount hseat ht
      rw [h.start_limitsAt_text hc ht, Node.shapes_text ht, e]
      rfl
    case inr.inl =>
      have hc' : b.children = before ++ [n] ++ after := by simpa using hc
      have ih := ih hc'
      rw [Tree.start_limitsAt_atomic hc hk, Node.shapes_atomic hk, Shape.first?]
      simpa [Node.total_pieces_self] using ih
    case inr.inr =>
      have hne := h.flat.canonical.nonempty n (by simp [hc]) hw
      have ⟨i, kind, cs⟩ := n
      cases kind <;> try contradiction
      case wrapper styles =>
        have ⟨n, right, e⟩ := List.exists_cons_of_ne_nil hne
        rw [Node.children_mk] at e
        subst e
        rw [h.start_limitsAt_wrapper hc, Node.shapes_wrapper, Node.heldShapes_cons]
        split
        case isFalse => rfl
        case isTrue ht =>
          have hseat : b.children = (Seat.held before i styles [] right after).plug [n] := by
            simpa using hc
          have ⟨k, e⟩ := h.exists_charCount hseat ht
          rw [e]
          rfl

section Walk

variable {stuck : Bool} {p : Leaf.Progress} {stop? : Option Nat} {stop : Position}
  {rest : List Leaf} {ss : List Shape}

theorem limits_walk_text (hc : b.children = s.plug [n]) (ht : n.isText) (site? : Option Site)
    (hw : ∀ p : Leaf.Progress, 0 < p.2 → t.limits block (Leaf.seek stop p.1 p.2 rest) =
      Shape.walk stuck (Piece.total s.lead + n.charCount)
        (some (Piece.total s.lead + n.charCount)) p ss) :
    t.limits block (Leaf.seek stop p.1 p.2 (n.leaves site? [] ++ rest)) =
      Shape.walk stuck (Piece.total s.lead) stop? p (List.replicate n.charCount .char ++ ss) := by
  have ⟨text, hk⟩ := Node.isText_iff.mp ht
  have ⟨k, e⟩ := h.exists_charCount hc ht
  have hlen : text.length = n.charCount := by
    rw [Node.charCount_of_isText ht, hk]
    rfl
  have hstep : Leaf.step p ⟨n.id, .text text, site?, []⟩ = if p.2 ≤ text.length then
      .error (.text n.id p.2) else .ok (none, p.2 - text.length) := rfl
  rw [h.leaves_eq hc (by simp [hk, Kind.isLeaf, Kind.isText]), hk, List.singleton_append,
    Leaf.seek_cons, hstep, hlen, e, Shape.walk_text]
  split_ifs with hle
  case pos => exact h.limits_text hc ht (by omega)
  case neg => exact e ▸ hw (none, p.2 - n.charCount) (by simp only; omega)

theorem limits_walk_held
    (hc : b.children = before ++ .mk i (.wrapper styles) (left ++ right) :: after)
    (hp : p.2 = 0 → ∀ m ∈ left.getLast?, m.isText = false)
    (hs : right = [] → stop? = (t.limitsAt block b (before.length + 1)).stop)
    (hw : ∀ p : Leaf.Progress, t.limits block (Leaf.seek stop p.1 p.2 rest) =
      Shape.walk stuck (Piece.total
          ((before ++ [Node.mk i (.wrapper styles) (left ++ right)]).flatMap Node.pieces))
        (t.limitsAt block b (before.length + 1)).stop p ss) :
    t.limits block (Leaf.seek stop p.1 p.2 (Node.leavesAmong i left.length [] right ++ rest)) =
      Shape.walk stuck (Piece.total (Seat.held before i styles left [] []).lead) stop? p
        (Node.heldShapes right ++ ss) := by
  induction right generalizing left p stop? with
  | nil =>
    have e :
        Piece.total ((before ++ [Node.mk i (.wrapper styles) (left ++ [])]).flatMap Node.pieces) =
          Piece.total (Seat.held before i styles left [] []).lead := by
      simp [Node.pieces]
    rw [hs rfl, ← e]
    exact hw p
  | cons n right ih =>
    have hw' : Node.mk i (.wrapper styles) (left ++ n :: right) ∈ b.children := by simp [hc]
    have hseat : b.children = (Seat.held before i styles left right after).plug [n] := by
      simpa using hc
    have e : left ++ n :: right = left ++ [n] ++ right := by simp
    have hlead : Piece.total (Seat.held before i styles (left ++ [n]) [] []).lead =
        Piece.total (Seat.held before i styles left [] []).lead + n.charCount := by
      simp [Node.total_items, Nat.add_assoc]
    -- How it goes on after the child.
    have hnext (p : Leaf.Progress) (hp : p.2 = 0 → n.isText = false) :
        t.limits block
            (Leaf.seek stop p.1 p.2 (Node.leavesAmong i (left.length + 1) [] right ++ rest)) =
          Shape.walk stuck (Piece.total (Seat.held before i styles left [] []).lead + n.charCount)
            (if n.isText then some
              (Piece.total (Seat.held before i styles left [] []).lead + n.charCount) else none) p
            (Node.heldShapes right ++ ss) := by
      have hlen : left.length + 1 = (left ++ [n]).length := by simp
      rw [← hlead, hlen]
      apply ih (e ▸ hc)
      case hp => simpa using hp
      case hs =>
        intro hr
        subst hr
        rw [h.stop_limitsAt_wrapper hc]
        rfl
      case hw => exact e ▸ hw
    rw [Node.leavesAmong, Node.heldShapes_cons, List.append_assoc, List.append_assoc]
    cases ht : n.isText
    case true =>
      refine h.limits_walk_text hseat ht _ fun p hpos => ?_
      have := hnext p (by omega)
      simpa [ht] using this
    case false =>
      have hk : n.kind = .lineBreak false :=
        (h.lined _ hw' rfl n (by simp)).resolve_left (by simp [ht])
      have hstep : Leaf.step p ⟨n.id, .lineBreak false, some ⟨i, left.length⟩, []⟩ =
          if p.2 = 0 then .error (.before (some ⟨i, left.length⟩)) else .ok (none, p.2 - 1) := rfl
      rw [h.leaves_eq hseat (by simp [hk, Kind.isLeaf, Kind.isBreak]), hk, List.singleton_append,
        Leaf.seek_cons, hstep]
      simp only [Bool.false_eq_true, if_false, List.singleton_append, Shape.walk]
      split_ifs with hz
      case pos => exact h.limits_held hc ht (hp hz)
      case neg =>
        have := hnext (none, p.2 - 1) fun _ => ht
        simpa [ht, Node.charCount_of_break hk] using this

theorem limits_walk (hc : b.children = before ++ after) (p : Leaf.Progress) :
    t.limits block (Leaf.seek ⟨block, b.children.length⟩ p.1 p.2
      (Node.leavesAmong block before.length [] after)) =
        Shape.walk (t.embedBelow? block block).isSome (Piece.total (before.flatMap Node.pieces))
          (t.limitsAt block b before.length).stop p (Node.shapes after) := by
  induction after generalizing before p with
  | nil =>
    rw [List.append_nil] at hc
    refine (h.limits_block (Nat.le_refl _)).trans (if_congr Iff.rfl rfl ?_)
    exact Limits.ext Tree.start_limitsAt_end (hc ▸ rfl)
  | cons n after ih =>
    have hc' : b.children = before ++ [n] ++ after := by simpa using hc
    have hseat : b.children = (Seat.bare before after).plug [n] := by simpa using hc
    have hlen : (before ++ [n]).length = before.length + 1 := by simp
    have htotal : Piece.total ((before ++ [n]).flatMap Node.pieces) =
        Piece.total (before.flatMap Node.pieces) + n.charCount := by
      simp [Node.total_pieces_self]
    have hnext := ih hc'
    rw [hlen, htotal] at hnext
    rw [Node.leavesAmong]
    obtain ht | hk | hw := h.flat.child n (by simp [hc])
    case inl =>
      rw [Node.shapes_text ht]
      refine h.limits_walk_text hseat ht _ fun p _ => ?_
      exact h.stop_limitsAt_text hc ht ▸ hnext p
    case inr.inl =>
      have hstart := h.start_eq_first? hc'
      rw [hlen, htotal] at hstart
      have he (hl : n.kind.isLeaf) : n.children = [] :=
        h.leaves n (Node.mem_preorderAll_of_mem (by simp [hc])) hl
      rw [Leaf.seek_append, Node.pass_leaves, Node.shapes_atomic hk, Shape.walk, ← hstart]
      cases hpass : Leaf.pass p (n.leaves none []) with
      | error halt => exact h.limits_beside hc hk (Node.among_of_pass hk he hpass) _
      | ok p => exact Tree.stop_limitsAt_atomic hc hk ▸ hnext p
    case inr.inr =>
      have hne := h.flat.canonical.nonempty n (by simp [hc]) hw
      have ⟨i, kind, cs⟩ := n
      cases kind <;> try contradiction
      case wrapper styles =>
        have hl : (Node.mk i (.wrapper styles) cs).leaves (some ⟨block, before.length⟩) [] =
            Node.leavesAmong i ([] : List Node).length [] cs := by
          have ⟨m, ms, e⟩ := List.exists_cons_of_ne_nil hne
          rw [Node.children_mk] at e
          rw [e]
          rfl
        have hlead : Piece.total (before.flatMap Node.pieces) =
            Piece.total (Seat.held before i styles [] [] []).lead := by simp
        rw [hl, Node.shapes_wrapper, hlead]
        have hc₀ : b.children = before ++ .mk i (.wrapper styles) ([] ++ cs) :: after := hc
        refine h.limits_walk_held hc₀ (by simp) (fun e => absurd e hne) fun p => ?_
        exact htotal ▸ hnext p

theorem isText_firstLeaf : b.firstLeaf.isText = Shape.startsInText (Node.shapes b.children) := by
  rw [Node.firstLeaf_eq]
  cases hc : b.children with
  | nil => exact h.not_isText
  | cons n after =>
    rw [Node.firstLeafAmong]
    obtain ht | hk | hw := h.flat.child n (by simp [hc])
    case inl =>
      have hseat : b.children = (Seat.bare [] after).plug [n] := hc
      have ⟨k, e⟩ := h.exists_charCount hseat ht
      have hk : n.kind.isLeaf := by simpa [Kind.isLeaf] using .inl ht
      rw [h.firstLeaf_eq_self hseat hk, ht, Node.shapes_text ht, e]
      rfl
    case inr.inl => rw [Node.shapes_atomic hk]; rfl
    case inr.inr =>
      have hne := h.flat.canonical.nonempty n (by simp [hc]) hw
      have ⟨i, kind, cs⟩ := n
      cases kind <;> try contradiction
      case wrapper styles =>
        have ⟨m, right, e⟩ := List.exists_cons_of_ne_nil hne
        rw [Node.children_mk] at e
        subst e
        have hseat : b.children = (Seat.held [] i styles [] right after).plug [m] := hc
        have hm : m.kind.isLeaf := by
          have hw : Node.mk i (.wrapper styles) (m :: right) ∈ b.children := by simp [hc]
          cases h.lined _ hw rfl m (.head _)
          case inl ht => simpa [Kind.isLeaf] using .inl ht
          case inr hk => simp [hk, Kind.isLeaf, Kind.isBreak]
        rw [Node.shapes_wrapper, Node.heldShapes_cons, Node.firstLeaf_eq, Node.children_mk,
          Node.firstLeafAmong, h.firstLeaf_eq_self hseat hm]
        split
        case isTrue ht =>
          have ⟨k, e⟩ := h.exists_charCount hseat ht
          rw [ht, e]
          rfl
        case isFalse ht => exact Bool.not_eq_true .. ▸ ht

theorem limits_resolve (o : Nat) : t.limits block (t.resolve block o) =
    Shape.limits (t.embedBelow? block block).isSome (Node.shapes b.children) o := by
  rw [Shape.limits, ← h.isText_firstLeaf]
  split
  case isTrue ho =>
    obtain ⟨rfl, hf⟩ := ho
    have hc : b.children = [] ++ b.children := rfl
    have hs := h.start_eq_first? hc
    rw [Tree.resolve_zero h.node h.not_isLeaf (by simpa using hf)]
    refine (h.limits_block (Nat.zero_le _)).trans (if_congr Iff.rfl rfl ?_)
    exact Limits.ext hs Tree.stop_limitsAt_zero
  case isFalse ho =>
    have hf (hz : o = 0) : b.firstLeaf.isText := by simpa [hz] using ho
    have hc : b.children = [] ++ b.children := rfl
    have hw := h.limits_walk hc (none, o)
    rw [Tree.resolve_of_firstLeaf h.node h.not_isLeaf hf, Tree.id_of_node? h.node]
    exact hw

end Walk

end Children

end LinedBlock

end RichText
