import RichText.Proofs.Locate
import RichText.Proofs.RoundTrip

theorem List.filter_lt_range (n k : Nat) : (range n).filter (· < k) = (range n).take k := by
  rw [take_range]
  induction n with
  | zero => simp
  | succ n ih =>
    rw [range_succ, filter_append, ih]
    obtain h | h := Nat.lt_or_ge n k
    case inl => simp [h, Nat.min_eq_right (Nat.le_of_lt h), range_succ]
    case inr => simp [Nat.not_lt.mpr h, Nat.min_eq_left h, Nat.min_eq_left (Nat.le_succ_of_le h)]

namespace RichText

namespace Kind

theorem width_le_one {k : Kind} (h : k.isText = false) : k.width ≤ 1 := by
  unfold width
  split <;> simp_all [isText]

end Kind

namespace Location

def address (l : Location) : List Nat :=
  (l.path.map (·.before.length)).reverse

end Location

namespace Node

-- What takes an offset in a node by itself: each char of a text, and a break that is not trailing.
def units (n : Node) : List Position :=
  (List.range n.kind.width).map (⟨n.id, ·⟩)

def content (n : Node) : List Position :=
  n.preorder.flatMap units

def contentAll (ns : List Node) : List Position :=
  (preorderAll ns).flatMap units

def ahead (b : Node) (stop : NodeId) : List Position :=
  (b.preorder.takeWhile (·.id ≠ stop)).flatMap units

-- A point as the way to it: the child indexes that lead to its node, and then its own offset.
def address (b : Node) (p : Position) : List Nat :=
  ((b.locate? p.node).map Location.address).getD [] ++ [p.offset]

-- Document order. Where the way to one point is the start of the way to another, the first point is
-- right before the child that holds the second.
def Precedes (b : Node) (p q : Position) : Prop :=
  b.address p < b.address q

instance (b : Node) (p q : Position) : Decidable (b.Precedes p q) :=
  inferInstanceAs (Decidable (b.address p < b.address q))

-- What lies before a point of a node: before one of its chars or children, or past all of them.
def upTo (b n : Node) (k : Nat) : List Position :=
  if n.isText then b.ahead n.id ++ n.units.take k
  else match n.children[k]? with
    | some c => b.ahead c.id
    | none => if k = 0 then b.ahead n.id else b.ahead n.id ++ n.content

section Content

variable {b n : Node} {ns ms : List Node} {u : Position}

theorem length_units (n : Node) : n.units.length = n.kind.width := by
  simp [units]

theorem units_of_not_isLeaf (h : n.kind.isLeaf = false) : n.units = [] := by
  simp [units, Kind.width_of_not_isLeaf h]

@[simp]
theorem contentAll_nil : contentAll [] = [] :=
  rfl

@[simp]
theorem contentAll_cons : contentAll (n :: ns) = n.content ++ contentAll ns := by
  simp [contentAll, content, preorderAll]

@[simp]
theorem contentAll_append : contentAll (ns ++ ms) = contentAll ns ++ contentAll ms := by
  simp [contentAll]

theorem content_eq (n : Node) : n.content = n.units ++ contentAll n.children := by
  simp [content, contentAll, preorder_eq]

theorem node_of_mem_units (h : u ∈ n.units) : u.node = n.id := by
  obtain ⟨_, _, rfl⟩ := List.mem_map.mp h
  rfl

theorem node_mem_ids_of_mem_content (h : u ∈ n.content) : u.node ∈ n.ids := by
  obtain ⟨m, hm, hu⟩ := List.mem_flatMap.mp h
  exact mem_ids_iff.mpr ⟨m, hm, (node_of_mem_units hu).symm⟩

theorem exists_of_mem_contentAll (h : u ∈ contentAll ns) :
    ∃ as n bs, ns = as ++ n :: bs ∧ u.node ∈ n.ids := by
  rw [contentAll, preorderAll_eq_flatMap, List.flatMap_assoc, List.mem_flatMap] at h
  obtain ⟨n, hn, hu⟩ := h
  obtain ⟨as, bs, e⟩ := List.append_of_mem hn
  exact ⟨as, n, bs, e, node_mem_ids_of_mem_content hu⟩

theorem length_content (he : n.LeavesEmpty) : n.content.length = n.charCount := by
  simp [content, List.length_flatMap, length_units, charCount_eq_sum, flow_eq_preorder n he]

theorem length_ahead (he : b.LeavesEmpty) (stop : NodeId) :
    (b.ahead stop).length = b.countBefore stop := by
  simp [ahead, List.length_flatMap, length_units, countBefore_eq_sum, flow_eq_preorder b he]

end Content

section Address

variable {b c : Node} {xs ys : List Node} {p q : Position} {k : Nat} (hd : b.ids.Nodup)

theorem address_self : b.address ⟨b.id, k⟩ = [k] := by
  obtain ⟨i, kind, cs⟩ := b
  simp [address, locate?, locateFrom, Location.address]

include hd

theorem address_child (hc : b.children = xs ++ c :: ys) (hp : p.node ∈ c.ids) :
    b.address p = xs.length :: c.address p := by
  have ⟨l, hl⟩ := Option.isSome_iff_exists.mp (locate?_isSome_iff.mpr hp)
  let f : Frame := ⟨b.id, b.kind, xs.reverse, ys⟩
  have ht : (Location.mk l.node (l.path ++ [f])).top = b := by
    calc
      (Location.mk l.node (l.path ++ [f])).top
        = f.plug l.top := by simp [Location.top]
      _ = b := by rw [top_of_locate? hl, ← b.eta, hc]; simp [f, Frame.plug]
  have hb := Location.locate?_top (ht.symm ▸ hd)
  rw [ht, id_of_locate? hl] at hb
  simp [address, hb, hl, Location.address, f]

theorem precedes_child (hc : b.children = xs ++ c :: ys) (hp : p.node ∈ c.ids)
    (hq : q.node ∈ c.ids) : b.Precedes p q ↔ c.Precedes p q := by
  simp [Precedes, address_child hd hc hp, address_child hd hc hq]

theorem filter_before (hc : b.children = xs ++ ys) (hp : ¬b.address p < [xs.length]) :
    (contentAll xs).filter (b.Precedes · p) = contentAll xs := by
  refine List.filter_eq_self.mpr fun u hu => decide_eq_true ?_
  obtain ⟨as, c, bs, rfl, hi⟩ := exists_of_mem_contentAll hu
  have hc : b.children = as ++ c :: (bs ++ ys) := by simp [hc]
  have hu : b.address u < [(as ++ c :: bs).length] := by
    simp [address_child hd hc hi, List.cons_lt_cons_iff]
  exact lt_of_lt_of_le hu (not_lt.mp hp)

theorem filter_after (hc : b.children = xs ++ ys) (hp : ¬[xs.length] < b.address p) :
    (contentAll ys).filter (b.Precedes · p) = [] := by
  refine List.filter_eq_nil_iff.mpr fun u hu hlt => hp ?_
  obtain ⟨as, c, bs, rfl, hi⟩ := exists_of_mem_contentAll hu
  have hc : b.children = (xs ++ as) ++ c :: bs := by simp [hc]
  have hu : ¬b.address u < [xs.length] := by
    simp [address_child hd hc hi, List.cons_lt_cons_iff]
  exact lt_of_le_of_lt (not_lt.mp hu) (of_decide_eq_true hlt)

end Address

section Cut

variable {b c n : Node} {xs ys : List Node} {p : Position} {k : Nat}

theorem filter_units_self : b.units.filter (b.Precedes · ⟨b.id, k⟩) = b.units.take k := by
  rw [units, List.filter_map, ← List.map_take, ← List.filter_lt_range]
  simp [Function.comp_def, Precedes, address_self, List.cons_lt_cons_iff]

theorem filter_content_self (hd : b.ids.Nodup) : b.content.filter (b.Precedes · ⟨b.id, k⟩) =
    b.units.take k ++ contentAll (b.children.take k) := by
  have hc := (b.children.take_append_drop k).symm
  have hl : ¬b.address ⟨b.id, k⟩ < [(b.children.take k).length] := by
    simp [address_self, List.cons_lt_cons_iff]
  have hr : (contentAll (b.children.drop k)).filter (b.Precedes · ⟨b.id, k⟩) = [] := by
    obtain h | h := Nat.le_total k b.children.length
    case inl => exact filter_after hd hc (by simp [address_self, h])
    case inr => simp [List.drop_of_length_le h]
  have hs : contentAll b.children = _ := congrArg contentAll hc
  rw [content_eq, hs, contentAll_append, List.filter_append, List.filter_append, filter_units_self,
    filter_before hd hc hl, hr, List.append_nil]

section Child

variable (hd : b.ids.Nodup) (hu : b.units = []) (hc : b.children = xs ++ c :: ys)

include hd hu hc

theorem filter_content_child (hp : p.node ∈ c.ids) : b.content.filter (b.Precedes · p) =
    contentAll xs ++ c.content.filter (c.Precedes · p) := by
  have ha := address_child hd hc hp
  have hc' : b.children = (xs ++ [c]) ++ ys := by simp [hc]
  have hm : c.content.filter (b.Precedes · p) = c.content.filter (c.Precedes · p) :=
    List.filter_congr fun u hu => by
      have hu := node_mem_ids_of_mem_content hu
      simp [precedes_child hd hc hu hp]
  rw [content_eq, hu, hc, List.nil_append, contentAll_append, contentAll_cons, List.filter_append,
    List.filter_append, hm, filter_before hd hc (by simp [ha]),
    filter_after hd hc' (by simp [ha, List.cons_lt_cons_iff]), List.append_nil]

theorem ahead_child (hn : n ∈ c.preorder) : b.ahead n.id = contentAll xs ++ c.ahead n.id := by
  obtain ⟨ls, rs, hs⟩ := List.append_of_mem hn
  have hb : b.preorder = (b :: preorderAll xs ++ ls) ++ n :: (rs ++ preorderAll ys) := by
    simp [preorder_eq b, hc, preorderAll, hs]
  have hm : c ∈ b.preorder := mem_preorder_of_child (by simp [hc]) c.mem_preorder_self
  have hcd := nodup_ids_of_mem hd hm
  rw [ahead, ahead, takeWhile_preorder hd hb, takeWhile_preorder hcd hs, List.flatMap_append,
    List.flatMap_cons, hu, List.nil_append, contentAll]

theorem upTo_child (hn : n ∈ c.preorder) : b.upTo n k = contentAll xs ++ c.upTo n k := by
  have ha {m : Node} (hm : m ∈ n.preorder) : b.ahead m.id = contentAll xs ++ c.ahead m.id :=
    ahead_child hd hu hc (mem_preorder_trans hn hm)
  have hs := ha n.mem_preorder_self
  rw [upTo, upTo]
  split
  case isTrue => rw [hs, List.append_assoc]
  case isFalse =>
    split
    case h_1 m hm => exact ha (mem_preorder_of_child (List.mem_of_getElem? hm) m.mem_preorder_self)
    case h_2 => split <;> simp [hs]

end Child

theorem ahead_self (b : Node) : b.ahead b.id = [] := by
  simp [ahead, preorder_eq]

theorem upTo_self (hd : b.ids.Nodup) (he : b.LeavesEmpty) :
    b.upTo b k = b.units.take k ++ contentAll (b.children.take k) := by
  rw [upTo, ahead_self]
  split
  case isTrue ht =>
    have hc := he b b.mem_preorder_self (by simp_all [Kind.isLeaf, isText])
    simp [hc]
  case isFalse ht =>
    split
    case h_1 c hc =>
      obtain ⟨hk, rfl⟩ := List.getElem?_eq_some_iff.mp hc
      have hu := units_of_not_isLeaf (he.not_isLeaf (List.getElem_mem hk))
      have hc : b.children = b.children.take k ++ b.children[k] :: b.children.drop (k + 1) := by
        rw [← List.drop_eq_getElem_cons, List.take_append_drop]
      rw [ahead_child hd hu hc (mem_preorder_self _), ahead_self, hu, List.append_nil]
      simp
    case h_2 hc =>
      have hc : b.children.length ≤ k := by simpa using hc
      have hu : b.units.length ≤ 1 := by
        rw [length_units]
        exact Kind.width_le_one (by simpa [isText] using ht)
      split
      case isTrue h => simp_all
      case isFalse h =>
        rw [content_eq, List.take_of_length_le hc, List.take_of_length_le (by omega), List.nil_append]

-- On the way up from the node, each parent adds what is in the children before the way.
theorem filter_content (hd : b.ids.Nodup) (he : b.LeavesEmpty) (hn : n ∈ b.preorder) :
    b.content.filter (b.Precedes · ⟨n.id, k⟩) = b.upTo n k := by
  induction b, hn using preorder_induction with
  | self => rw [filter_content_self hd, upTo_self hd he]
  | child b c hc hn ih =>
    have hm := mem_preorder_of_child hc c.mem_preorder_self
    have hu := units_of_not_isLeaf (he.not_isLeaf hc)
    have ih := ih (nodup_ids_of_mem hd hm) (he.of_mem hm)
    obtain ⟨xs, ys, hc⟩ := List.append_of_mem hc
    rw [filter_content_child hd hu hc (mem_ids_iff.mpr ⟨n, hn, rfl⟩), upTo_child hd hu hc hn, ih]

theorem length_upTo (hd : b.ids.Nodup) (he : b.LeavesEmpty) (hn : n ∈ b.preorder) :
    (b.upTo n k).length = b.offsetOf n k := by
  cases ht : n.isText
  case true =>
    have hk : n.kind.isLeaf := Bool.or_eq_true_iff.mpr (.inl ht)
    have hw := (charCount_of_isLeaf hk).symm.trans (charCount_of_isText ht)
    simp [upTo, offsetOf, ht, length_ahead he, length_units, hw]
  case false =>
    have hc : n.content.length = n.charCount := length_content (he.of_mem hn)
    have hb (e : n.id = b.id) : b.countBefore n.id + n.charCount = b.charCount := by
      rw [List.inj_on_of_nodup_map hd hn b.mem_preorder_self e, countBefore_self, Nat.zero_add]
    simp only [upTo, offsetOf, ht, Bool.false_eq_true, if_false]
    cases n.children[k]? with
    | some c => exact length_ahead he c.id
    | none =>
      simp only
      split
      case isTrue => exact length_ahead he n.id
      case isFalse =>
        rw [List.length_append, length_ahead he, hc]
        split
        case isTrue e => exact hb e
        case isFalse => rfl

theorem offsetOf_le (hd : b.ids.Nodup) (he : b.LeavesEmpty) (hn : n ∈ b.preorder) (k : Nat) :
    b.offsetOf n k ≤ b.charCount := by
  rw [← length_upTo hd he hn, ← filter_content hd he hn, ← length_content he]
  exact List.length_filter_le ..

end Cut

end Node

namespace Tree

-- The offset of a point of a block counts the chars and breaks of the block that lie before it. So it
-- is at most what the whole block counts, and no point has a smaller offset than one before it.
theorem WellFormed.offsetOf_counts {t : Tree} {b n m : Node} (wf : t.WellFormed)
    (hb : t.node? block = some b) (he : b.LeavesEmpty) (hn : n ∈ b.preorder) (hm : m ∈ b.preorder)
    (k l : Nat) :
    t.offsetOf block ⟨n.id, k⟩ = (b.upTo n k).length ∧
      b.upTo n k = b.content.filter (b.Precedes · ⟨n.id, k⟩) ∧
      t.charCount block = b.content.length ∧
      t.offsetOf block ⟨n.id, k⟩ ≤ t.charCount block ∧
      (¬b.Precedes ⟨m.id, l⟩ ⟨n.id, k⟩ →
        t.offsetOf block ⟨n.id, k⟩ ≤ t.offsetOf block ⟨m.id, l⟩) := by
  have hd := wf.nodup_ids hb
  rw [wf.offsetOf_of_mem hb hn, wf.offsetOf_of_mem hb hm, charCount_of_node? hb]
  refine ⟨(Node.length_upTo hd he hn).symm, (Node.filter_content hd he hn).symm,
    (Node.length_content he).symm, Node.offsetOf_le hd he hn k, fun h => ?order⟩
  case order =>
    rw [← Node.length_upTo hd he hn, ← Node.length_upTo hd he hm, ← Node.filter_content hd he hn,
      ← Node.filter_content hd he hm]
    refine (List.monotone_filter_right _ fun u hu => ?_).length_le
    exact decide_eq_true (lt_of_lt_of_le (of_decide_eq_true hu) (not_lt.mp h))

-- Between two texts a wrapper holds a break, an embed with a break of its own, and an empty wrapper.
def quilt : Node :=
  .mk ⟨1⟩ (.block "p" 0 true) [
    .mk ⟨2⟩ (.text "né✓") [],
    .mk ⟨3⟩ (.wrapper (.single "b")) [
      .mk ⟨4⟩ (.lineBreak false) [],
      .mk ⟨5⟩ (.embed "math") [.mk ⟨6⟩ (.text "xy") [], .mk ⟨7⟩ (.lineBreak false) []],
      .mk ⟨8⟩ (.wrapper (.single "i")) []],
    .mk ⟨9⟩ (.text "z") [],
    .mk ⟨10⟩ (.lineBreak true) []]

def quilted : Tree where
  roots := [.mk ⟨0⟩ (.element "div") [quilt]]
  made := 11

-- A point past the end of the break comes before one past the end of the wrapper.
theorem offsetOf_counts_quilted :
    quilted.WellFormed ∧ quilted.node? ⟨1⟩ = some quilt ∧ quilt.LeavesEmpty ∧
      ∃ n ∈ quilt.preorder, ∃ m ∈ quilt.preorder, n.id = ⟨4⟩ ∧ m.id = ⟨3⟩ ∧
        quilt.upTo n 5 = [⟨⟨2⟩, 0⟩, ⟨⟨2⟩, 1⟩, ⟨⟨2⟩, 2⟩, ⟨⟨4⟩, 0⟩] ∧
        quilted.offsetOf ⟨1⟩ ⟨⟨4⟩, 5⟩ = 4 ∧ quilted.charCount ⟨1⟩ = 8 ∧
        ¬quilt.Precedes ⟨⟨3⟩, 9⟩ ⟨⟨4⟩, 5⟩ ∧ 4 ≤ quilted.offsetOf ⟨1⟩ ⟨⟨3⟩, 9⟩ := by
  have wf : quilted.WellFormed := by decide
  have he : quilt.LeavesEmpty := by simp [quilt, Kind.isLeaf, Kind.isText, Kind.isBreak]
  have hp : ¬quilt.Precedes ⟨⟨3⟩, 9⟩ ⟨⟨4⟩, 5⟩ := by decide
  let n : Node := .mk ⟨4⟩ (.lineBreak false) []
  obtain ⟨m, hm, hi⟩ : ∃ m ∈ quilt.preorder, m.id = ⟨3⟩ := by decide
  have hn : n ∈ quilt.preorder := by decide
  have hu : quilt.upTo n 5 = [⟨⟨2⟩, 0⟩, ⟨⟨2⟩, 1⟩, ⟨⟨2⟩, 2⟩, ⟨⟨4⟩, 0⟩] := by decide
  have hb : quilted.node? ⟨1⟩ = some quilt := by decide
  obtain ⟨h, _, hc, _, ho⟩ := wf.offsetOf_counts hb he hn hm 5 9
  rw [hu] at h
  rw [hi] at ho
  have ho := ho hp
  rw [h] at ho
  exact ⟨wf, hb, he, n, hn, m, hm, rfl, hi, hu, h, hc, hp, ho⟩

end Tree

end RichText
