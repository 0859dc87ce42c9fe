import RichText.Proofs.Arena.Stack
import RichText.Proofs.LeafWalk

namespace RichText

namespace Arena

variable {a : Arena} {t : Tree} {i : NodeId} {b n : Node} {f : Frame} {path : List Frame}

theorem Holds.records_at (h : a.Holds t) (ht : (Location.mk n (f :: path)).top ∈ t.roots) :
    a.Records (f.before.reverse ++ n :: f.after) :=
  (records_cons.mp (h.records (@node?_at _ _ h (f.plug n) path ht))).right.left

theorem Holds.embedFrom?_eq (h : a.Holds t) (ht : (Location.mk n path).top ∈ t.roots)
    (scope : NodeId) : a.embedFrom? scope (path.head?.map Frame.id) =
      some ((Location.mk n path).embedBelow? scope) := by
  induction path generalizing n with
  | nil => rw [List.head?_nil, Option.map_none, embedFrom?]; rfl
  | cons f path ih =>
    have ht : (Location.mk (f.plug n) path).top ∈ t.roots := ht
    have hk : a.kind? f.id = some f.kind := h.kind?_at ht
    have hp : a.parent? f.id = path.head?.map Frame.id := h.parent?_at ht
    rw [List.head?_cons, Option.map_some, embedFrom?, isEmbed_eq hk, hp, ih ht]
    simp only [Location.embedBelow?, Location.ancestors, List.map_cons, List.takeWhile_cons]
    split
    case isTrue e => simp [e]
    case isFalse hne => split <;> simp_all

theorem Holds.embedAbove?_eq (h : a.Holds t) (scope i : NodeId) :
    a.embedAbove? scope i = some (t.embedBelow? scope i) := by
  rw [embedAbove?, Tree.embedBelow?]
  cases hl : t.locate? i with
  | none =>
    rw [h.parent?_eq, Tree.parent?, hl, Option.bind_none, embedFrom?]
    rfl
  | some l =>
    have ht := Tree.top_of_locate? hl
    rw [← Tree.id_of_locate? hl, h.parent?_at ht, h.embedFrom?_eq ht]
    rfl

section Depth

variable {upper : NodeId} (h : a.Holds t) (hb : t.node? upper = some b)

include h hb

theorem Holds.depthFrom?_of_top (ht : (Location.mk n path).top = b) (depth : Nat) :
    a.depthFrom? upper depth n.id = some (some (depth + path.length)) := by
  induction path generalizing n depth with
  | nil =>
    obtain rfl : n = b := ht
    rw [depthFrom?, if_pos (Tree.id_of_node? hb)]
    rfl
  | cons f path ih =>
    obtain ⟨lb, hlb, e⟩ := Tree.exists_locate? hb
    have hne : n.id ≠ upper := Tree.id_of_node? hb ▸ ht ▸ Location.id_ne_top (ht ▸ h.wf.nodup_ids hb)
    have hl := h.wf.locate?_beneath hlb (ht.trans e.symm)
    rw [depthFrom?, if_neg hne, h.parent?_at (Tree.top_of_locate? hl), List.cons_append,
      List.head?_cons, Option.map_some]
    exact (ih (n := f.plug n) ht (depth + 1)).trans (by simp [Nat.add_right_comm, Nat.add_assoc])

theorem Holds.depthFrom?_of_not_contains (hi : t.contains upper i = false) (depth : Nat) :
    a.depthFrom? upper depth i = some none := by
  induction i using h.wf.wellFounded_parent.induction generalizing depth with
  | _ i ih =>
    have hne : i ≠ upper := by
      rintro rfl
      have hc := (h.wf.contains_iff hb hb).mpr b.mem_preorder_self
      simp [hc] at hi
    rw [depthFrom?, if_neg hne, h.parent?_eq]
    cases hp : t.parent? i with
    | none => rfl
    | some p =>
      rw [h.wf.contains_of_parent? hp, Bool.or_eq_false_iff] at hi
      exact ih p hp hi.right _

theorem Holds.depthFrom?_eq (i : NodeId) :
    a.depthFrom? upper 0 i = some ((b.locate? i).map (·.path.length)) := by
  cases hl : b.locate? i with
  | some l =>
    rw [← Node.id_of_locate? hl, h.depthFrom?_of_top hb (Node.top_of_locate? hl), Nat.zero_add]
    rfl
  | none =>
    refine h.depthFrom?_of_not_contains hb (Bool.eq_false_iff.mpr fun hc => ?_) 0
    obtain ⟨b', n, hb', hn, hm⟩ := h.wf.exists_of_contains hc
    cases hb.symm.trans hb'
    have hi := Node.locate?_isSome_iff.mpr (Node.mem_ids_iff.mpr ⟨n, hm, Tree.id_of_node? hn⟩)
    simp [hl] at hi

end Depth

section Leaves

variable (h : a.Holds t) (ht : (Location.mk n path).top ∈ t.roots) (scope : NodeId)

include h ht

theorem Holds.nextLeaf?_at : a.nextLeaf? scope n.id =
    some (((Location.mk n path).nextLeaf? scope).map Node.id) := by
  induction path generalizing n with
  | nil =>
    have hp := h.parent?_at ht
    rw [nextLeaf?, next?, hp]
    split <;> rfl
  | cons f path ih =>
    have ih := ih (n := f.plug n) ht
    have hr := h.records_at ht
    rw [nextLeaf?, h.next?_at ht, h.parent?_at ht, Location.nextLeaf?, Location.nextLeaf?.climb]
    split
    case isTrue => rfl
    case isFalse =>
      cases hc : f.after with
      | nil => exact ih
      | cons m ms => simp [hr.firstLeaf (n := m) (by simp [hc])]

theorem Holds.prevLeaf?_at : a.prevLeaf? scope n.id =
    some (((Location.mk n path).prevLeaf? scope).map Node.id) := by
  induction path generalizing n with
  | nil =>
    have hp := h.parent?_at ht
    rw [prevLeaf?, prev?, hp]
    split <;> rfl
  | cons f path ih =>
    have ih := ih (n := f.plug n) ht
    have hr := h.records_at ht
    rw [prevLeaf?, h.prev?_at ht, h.parent?_at ht, Location.prevLeaf?, Location.prevLeaf?.climb]
    split
    case isTrue => rfl
    case isFalse =>
      cases hc : f.before with
      | nil => exact ih
      | cons m ms => simp [hr.lastLeaf (n := m) (by simp [hc])]

end Leaves

theorem Holds.nextLeaf?_eq (h : a.Holds t) (scope i : NodeId) :
    a.nextLeaf? scope i = some (t.nextLeaf? scope i) := by
  rw [Tree.nextLeaf?]
  cases hl : t.locate? i with
  | some l =>
    rw [← Tree.id_of_locate? hl]
    exact h.nextLeaf?_at (Tree.top_of_locate? hl) scope
  | none =>
    have hp : a.parent? i = none := by rw [h.parent?_eq, Tree.parent?, hl, Option.bind_none]
    rw [nextLeaf?, next?, hp]
    split <;> rfl

theorem Holds.prevLeaf?_eq (h : a.Holds t) (scope i : NodeId) :
    a.prevLeaf? scope i = some (t.prevLeaf? scope i) := by
  rw [Tree.prevLeaf?]
  cases hl : t.locate? i with
  | some l =>
    rw [← Tree.id_of_locate? hl]
    exact h.prevLeaf?_at (Tree.top_of_locate? hl) scope
  | none =>
    have hp : a.parent? i = none := by rw [h.parent?_eq, Tree.parent?, hl, Option.bind_none]
    rw [prevLeaf?, prev?, hp]
    split <;> rfl

end Arena

namespace Tree

variable {t : Tree} {scope : NodeId} {b : Node}

-- The walk from leaf to leaf reads every leaf of a scope once, forwards in document order and
-- backwards in the reverse order, and no step from a node of the scope leads out of it. The order is the
-- one in which a stack brings up what is beneath the scope, and each step is found by stored links.
theorem WellFormed.visits_leaves (wf : t.WellFormed) (hb : t.node? scope = some b) :
    Visits (t.nextLeaf? scope) b.firstLeaf.id (t.leaves scope) ∧
      Visits (t.prevLeaf? scope) b.lastLeaf.id (t.leaves scope).reverse ∧
      (t.leaves scope).Nodup ∧
      (∀ i j, t.contains scope i → (t.nextLeaf? scope i = some j ∨ t.prevLeaf? scope i = some j) →
        j ∈ t.leaves scope) ∧
      ∀ a : Arena, a.Holds t → a.preorder scope = some ((t.preorder scope).map Node.id) ∧
        a.firstLeaf scope = some b.firstLeaf.id ∧ a.lastLeaf scope = some b.lastLeaf.id ∧
        ∀ i, a.nextLeaf? scope i = some (t.nextLeaf? scope i) ∧
          a.prevLeaf? scope i = some (t.prevLeaf? scope i) := by
  have hl := leaves_of_node? hb
  refine ⟨?next, ?prev, ?once, fun i j hi hj => wf.mem_leaves hb hi hj, fun a h => ⟨h.preorder_eq hb,
    h.firstLeaf_eq hb, h.lastLeaf_eq hb, fun i => ⟨h.nextLeaf?_eq scope i, h.prevLeaf?_eq scope i⟩⟩⟩
  case next =>
    have hf : (t.leaves scope).head? = some b.firstLeaf.id := by simp [hl, Node.head?_tips]
    exact .of_head? hf fun xs i ys h => (wf.beside_leaf hb h).left
  case prev =>
    have hf : (t.leaves scope).reverse.head? = some b.lastLeaf.id := by
      simp [hl, Node.getLast?_tips]
    refine .of_head? hf fun xs i ys h => ?_
    have h : t.leaves scope = ys.reverse ++ i :: xs.reverse := by
      rw [← List.reverse_reverse (t.leaves scope), h]
      simp
    rw [(wf.beside_leaf hb h).right, List.getLast?_reverse]
  case once => exact hl ▸ (wf.nodup_ids hb).sublist (List.filter_sublist.map Node.id)

-- A block between two others, with a break in a wrapper and an embed without children.
def paragraphs : Tree where
  roots := [.mk ⟨0⟩ (.element "div") [
    .mk ⟨1⟩ (.block "p" 0 true) [.mk ⟨2⟩ (.text "a") []],
    .mk ⟨3⟩ (.block "p" 1 true) [
      .mk ⟨4⟩ (.wrapper (.single "b")) [
        .mk ⟨5⟩ (.text "b") [],
        .mk ⟨6⟩ (.lineBreak false) [],
        .mk ⟨7⟩ (.text "c") []],
      .mk ⟨8⟩ (.embed "math") []],
    .mk ⟨9⟩ (.block "p" 2 true) [.mk ⟨10⟩ (.text "d") []]]]
  made := 11

theorem visits_leaves_paragraphs :
    paragraphs.WellFormed ∧ ∃ b, paragraphs.node? ⟨3⟩ = some b ∧
      paragraphs.leaves ⟨3⟩ = [⟨5⟩, ⟨6⟩, ⟨7⟩, ⟨8⟩] ∧
      Visits (paragraphs.nextLeaf? ⟨3⟩) b.firstLeaf.id [⟨5⟩, ⟨6⟩, ⟨7⟩, ⟨8⟩] ∧
      Visits (paragraphs.prevLeaf? ⟨3⟩) b.lastLeaf.id [⟨8⟩, ⟨7⟩, ⟨6⟩, ⟨5⟩] ∧
      paragraphs.arena.Holds paragraphs ∧ paragraphs.arena.nextLeaf? ⟨3⟩ ⟨5⟩ = some (some ⟨6⟩) := by
  have wf : paragraphs.WellFormed := by decide
  obtain ⟨b, hb⟩ : ∃ b, paragraphs.node? ⟨3⟩ = some b := ⟨_, rfl⟩
  have hl : paragraphs.leaves ⟨3⟩ = [⟨5⟩, ⟨6⟩, ⟨7⟩, ⟨8⟩] := by decide
  obtain ⟨hn, hp, _, _, ha⟩ := wf.visits_leaves hb
  have hw := Arena.holds_arena wf
  obtain ⟨_, _, _, hs⟩ := ha _ hw
  have he : paragraphs.nextLeaf? ⟨3⟩ ⟨5⟩ = some ⟨6⟩ := by decide
  rw [hl] at hn hp
  exact ⟨wf, b, hb, hl, hn, hp, hw, he ▸ (hs ⟨5⟩).left⟩

end Tree

end RichText
