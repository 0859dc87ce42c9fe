import RichText.Proofs.Edited
import RichText.Proofs.Passage
import RichText.Proofs.Sealed

namespace List

theorem exists_of_flatMap_eq {f : α → List β} {as : List α} (h : as.flatMap f = xs ++ b :: ys) :
    ∃ ls a rs us vs, as = ls ++ a :: rs ∧ f a = us ++ b :: vs ∧ xs = ls.flatMap f ++ us ∧
      ys = vs ++ rs.flatMap f := by
  induction as generalizing xs with
  | nil => simp at h
  | cons a as ih =>
    rw [flatMap_cons, append_eq_append_iff] at h
    obtain ⟨us, hx, hr⟩ | ⟨us, ha, hr⟩ := h
    case inl =>
      have ⟨ls, c, rs, us', vs, hc, hfc, hx', hy⟩ := ih hr
      exact ⟨a :: ls, c, rs, us', vs, by rw [hc]; rfl, hfc, by simp [hx, hx'], hy⟩
    case inr =>
      cases us with
      | nil =>
        have ⟨ls, c, rs, us', vs, hc, hfc, hx', hy⟩ := @ih [] hr.symm
        exact ⟨a :: ls, c, rs, us', vs, by rw [hc]; rfl, hfc, by simp [← hx', ha], hy⟩
      | cons u us =>
        cases hr
        exact ⟨[], a, as, xs, us, rfl, ha, rfl, rfl⟩

end List

namespace RichText

namespace Item

def width : Item → Nat
  | char _ => 1
  | node n => n.charCount

end Item

namespace Node

mutual

def sights : Node → List Item
  | mk i k cs => if k.isLeaf || k.isEmbed then (mk i k cs).items else sightsAll cs

def sightsAll : List Node → List Item
  | [] => []
  | n :: ns => n.sights ++ sightsAll ns

end

end Node

namespace Item

def sights : Item → List Item
  | char c => [.char c]
  | node n => n.sights

end Item

namespace Node

theorem sum_width_items (n : Node) : (n.items.map Item.width).sum = n.charCount := by
  cases ht : n.isText
  case true =>
    have ⟨s, hs⟩ := isText_iff.mp ht
    rw [← length_items ht, items_text hs, List.map_map, List.length_map]
    simp [Function.comp_def, Item.width]
  case false => simp [items_of_not_isText ht, Item.width]

mutual

theorem sum_width_sights_self (n : Node) : (n.sights.map Item.width).sum = n.charCount := by
  have ⟨i, k, cs⟩ := n
  rw [sights]
  split
  case isTrue => exact sum_width_items _
  case isFalse h =>
    have hk : (mk i k cs).kind.isLeaf = false := by simp_all [kind]
    rw [sum_width_sightsAll cs, charCount_of_not_isLeaf hk, children_mk]

theorem sum_width_sightsAll (ns : List Node) :
    ((sightsAll ns).map Item.width).sum = (ns.map charCount).sum := by
  match ns with
  | [] => rfl
  | n :: ns => simp [sightsAll, sum_width_sights_self n, sum_width_sightsAll ns]

end

mutual

theorem outline_sights (n : Node) : n.outline.flatMap Item.sights = n.sights := by
  have ⟨i, k, cs⟩ := n
  cases k
  case text s =>
    rw [outline, List.flatMap_map]
    exact List.map_eq_flatMap.symm
  case wrapper => exact outlineAll_sights cs
  all_goals simp [outline, Item.sights]

theorem outlineAll_sights (ns : List Node) :
    (outlineAll ns).flatMap Item.sights = sightsAll ns := by
  match ns with
  | [] => rfl
  | n :: ns => rw [outlineAll, sightsAll, List.flatMap_append, outline_sights n, outlineAll_sights ns]

end

mutual

theorem landmarks_sights (n : Node) (site : Site) :
    (n.landmarks site).flatMap (·.node.items) = n.sights := by
  have ⟨i, k, cs⟩ := n
  rw [landmarks, sights]
  split
  case isTrue => simp
  case isFalse => exact landmarksAmong_sights cs i 0

theorem landmarksAmong_sights (ns : List Node) (parent : NodeId) (index : Nat) :
    (landmarksAmong parent index ns).flatMap (·.node.items) = sightsAll ns := by
  match ns with
  | [] => rfl
  | n :: ns => rw [landmarksAmong, sightsAll, List.flatMap_append, landmarks_sights n,
      landmarksAmong_sights ns]

end

theorem sum_width_sights (ls : List Landmark) :
    ((ls.flatMap (·.node.items)).map Item.width).sum = (ls.map (·.node.charCount)).sum := by
  induction ls with
  | nil => rfl
  | cons l ls ih => simp [sum_width_items, ih]

theorem exists_landmark_of_sights {ls : List Landmark}
    (h : ls.flatMap (·.node.items) = xs ++ .node n :: ys) :
    ∃ as l bs, ls = as ++ l :: bs ∧ l.node = n ∧ xs = as.flatMap (·.node.items) ∧
      ys = bs.flatMap (·.node.items) := by
  have ⟨as, l, bs, us, vs, hl, hi, hx, hy⟩ := List.exists_of_flatMap_eq h
  have ht : l.node.isText = false := by
    rw [Bool.eq_false_iff]
    intro ht
    have ⟨s, hs⟩ := isText_iff.mp ht
    have hm : Item.node n ∈ s.toList.map Item.char := by rw [← items_text hs, hi]; simp
    simp at hm
  rw [items_of_not_isText ht, List.singleton_eq_append_iff] at hi
  simp only [List.cons_ne_nil, and_false, or_false, List.cons.injEq, Item.node.injEq] at hi
  obtain ⟨rfl, e, rfl⟩ := hi
  exact ⟨as, l, bs, hl, e.symm, by simpa using hx, by simpa using hy⟩

-- All that leads from the offsets of a block to positions and back. Where a trailing break stands at
-- the end of what takes offsets, nothing that follows it can be missed.
structure Navigable (b : Node) : Prop extends Legible b.children where
  trailing : ∀ xs n ys, sightsAll b.children = xs ++ .node n :: ys →
    n.kind = .lineBreak true → (ys.map Item.width).sum = 0

theorem Navigable.leavesEmpty {b : Node} (h : b.Navigable) (hk : b.kind.isLeaf = false) :
    b.LeavesEmpty :=
  leavesEmpty_iff.mpr ⟨by simp [hk], h.leaf⟩

theorem Navigable.of_outline {b : Node} {cs : List Node} (h : b.Navigable)
    (e : outlineAll cs = outlineAll b.children) (hl : LeavesEmptyAll cs) :
    (b.withChildren cs).Navigable := by
  have mem {n : Node} (hn : n ∈ preorderAll cs) (hk : n.kind.isEmbed) : n ∈ preorderAll b.children := by
    refine mem_preorderAll_of_outline_eq e hl hn ?_
    cases hk' : n.kind <;>
      simp_all [Kind.isEmbed, isStyleable, isText, isWrapper, Kind.isText, Kind.isWrapper]
  have hs : sightsAll cs = sightsAll b.children := by
    rw [← outlineAll_sights, e, outlineAll_sights]
  exact {
    leaf := hl
    embed := fun n hn hk => h.embed n (mem hn hk) hk
    text := fun n hn hk => h.text n (mem hn hk) hk
    trailing := by
      rw [children_withChildren, hs]
      exact h.trailing }

end Node

namespace Landmark.Laid

variable {t : Tree} {block : NodeId}

theorem total_eq (h : Laid t block base ls total) :
    total = base + (ls.map (·.node.charCount)).sum := by
  induction h with
  | nil => rfl
  | cons _ _ ih => simp [← Nat.add_assoc, ← ih]

theorem start_eq {as bs : List Landmark} {l : Landmark}
    (h : Laid t block base (as ++ l :: bs) total) :
    t.countBefore block l.node.id = base + (as.map (·.node.charCount)).sum ∧
      total = base + (as.map (·.node.charCount)).sum + l.node.charCount +
        (bs.map (·.node.charCount)).sum := by
  induction as generalizing base with
  | nil =>
    cases h with
    | cons ha ht => exact ⟨ha.start, ht.total_eq⟩
  | cons a as ih =>
    cases h with
    | cons _ ht => simpa [Nat.add_assoc] using ih ht

end Landmark.Laid

namespace Tree

variable {t t' : Tree} {block : NodeId} {b : Node} {cs : List Node} {o : Nat}

-- No embed anywhere in the block encloses the offset.
def Unenclosed (t : Tree) (block : NodeId) (o : Nat) : Prop :=
  ∀ n ∈ Node.preorderAll (t.children block), ¬t.Encloses block o n

instance : Decidable (t.Unenclosed block o) :=
  inferInstanceAs (Decidable (∀ n ∈ Node.preorderAll (t.children block), _))

section Block

variable (wf : t.WellFormed) (hb : t.node? block = some b) (hk : b.kind.isLeaf = false)

include wf hb hk

theorem countBefore_of_sights (he : b.LeavesEmpty)
    (h : Node.sightsAll b.children = xs ++ .node n :: ys) :
    t.countBefore block n.id = (xs.map Item.width).sum ∧
      b.charCount = (xs.map Item.width).sum + n.charCount + (ys.map Item.width).sum := by
  rw [← Node.landmarksAmong_sights b.children b.id 0] at h
  have ⟨as, l, bs, hl, e, hx, hy⟩ := Node.exists_landmark_of_sights h
  have ⟨hs, ht⟩ := (hl ▸ laid_block wf hb he hk).start_eq
  rw [hx, hy, Node.sum_width_sights, Node.sum_width_sights, ← e]
  simpa using And.intro hs ht

theorem navigable_of_readable (h : b.Readable) : b.Navigable where
  toLegible := h.toLegible
  trailing xs n ys hs hn := by
    have ⟨hc, ht⟩ := countBefore_of_sights wf hb hk (h.leavesEmpty hk) hs
    rw [← Node.landmarksAmong_sights b.children b.id 0] at hs
    have ⟨as, l, bs, hl, e, _⟩ := Node.exists_landmark_of_sights hs
    have hm : l ∈ Node.landmarksAmong b.id 0 b.children := by simp [hl]
    have := h.countBefore_of_trailing hk (wf.nodup_ids hb) hm (e ▸ hn)
    rw [← countBefore_of_node? hb, e] at this
    omega

theorem unenclosed_iff (h : b.Navigable) : t.Unenclosed block o ↔
    ∀ xs n ys, Node.sightsAll b.children = xs ++ .node n :: ys → n.kind.isEmbed →
      ¬((xs.map Item.width).sum < o ∧ o < (xs.map Item.width).sum + n.charCount) := by
  have he := h.leavesEmpty hk
  simp only [Unenclosed, children_of_node? hb]
  constructor
  case mp =>
    intro hu xs n ys hs hn ⟨hl, hr⟩
    obtain ⟨hc, _⟩ := countBefore_of_sights wf hb hk he hs
    rw [← Node.landmarksAmong_sights b.children b.id 0] at hs
    obtain ⟨as, l, bs, hl', e, _⟩ := Node.exists_landmark_of_sights hs
    have hm : l ∈ Node.landmarksAmong b.id 0 b.children := by simp [hl']
    exact hu n (e ▸ Node.node_mem_preorderAll _ hm) ⟨hn, hc ▸ hl, hc ▸ hr⟩
  case mpr =>
    intro hs n hn hen
    obtain ⟨l, hl, e⟩ : ∃ l ∈ Node.landmarksAmong b.id 0 b.children, l.node = n :=
      Node.exists_landmarkAmong _ h.toLegible hn hen.embed
    obtain ⟨as, bs, hls⟩ := List.append_of_mem hl
    have ht : n.isText = false := by
      have he := hen.embed
      cases hk : n.kind <;> simp_all [Kind.isEmbed, Node.isText, Kind.isText]
    have hsn : Node.sightsAll b.children =
        as.flatMap (·.node.items) ++ .node n :: bs.flatMap (·.node.items) := by
      rw [← Node.landmarksAmong_sights b.children b.id 0, hls]
      simp [e, Node.items_of_not_isText ht]
    obtain ⟨hc, _⟩ := countBefore_of_sights wf hb hk he hsn
    exact hs _ n _ hsn hen.embed ⟨hc ▸ hen.left, hc ▸ hen.right⟩

theorem offsetOf_resolve_of_unenclosed (h : b.Navigable) (hu : t.Unenclosed block o)
    (ho : o ≤ b.charCount) : t.offsetOf block (t.resolve block o) = o := by
  have he := h.leavesEmpty hk
  cases resolve_cases hb hk o
  case inr hr => rw [hr.right, offsetOf_start wf hb hk he, hr.left]
  case inl hr =>
    have hd := wf.nodup_ids hb
    have hl := Landmark.lands_walk (laid_block wf hb he hk) (offsetOf_end wf hb hk)
      (fun l hl ht => ?trailing) (fun l hl hk => ?embed) o
    case trailing =>
      have ⟨as, bs, hls⟩ := List.append_of_mem hl
      have hn : l.node.isText = false := by simp [Node.isText, ht, Kind.isText]
      have hs : Node.sightsAll b.children =
          as.flatMap (·.node.items) ++ .node l.node :: bs.flatMap (·.node.items) := by
        rw [← Node.landmarksAmong_sights b.children b.id 0, hls]
        simp [Node.items_of_not_isText hn]
      have ⟨hc, hb⟩ := countBefore_of_sights wf hb hk he hs
      have := h.trailing _ _ _ hs ht
      have hz : l.node.charCount = 0 := by
        rw [Node.charCount_of_isLeaf (by simp [ht, Kind.isLeaf, Kind.isBreak]), ht]
        rfl
      omega
    case embed =>
      refine Node.charCount_of_no_text hk (h.of_subset ?_)
      simpa [Node.preorderAll] using
        (Node.preorderAll_sublist _ (Node.node_mem_preorderAll _ hl)).subset
    have hf := hl.free fun l hl => by
      rw [Nat.zero_add]
      exact hu _ (by rw [children_of_node? hb]; exact Node.node_mem_preorderAll _ hl)
    rw [hr, seek_block hd h.toLegible, hf]
    omega

omit wf in
theorem resolve_mem (o : Nat) : ∃ n ∈ b.preorder, n.id = (t.resolve block o).node := by
  have hi := id_of_node? hb
  have hm : block ∈ b.ids := hi ▸ b.id_mem_ids
  refine Node.mem_ids_iff.mp ?_
  cases resolve_cases hb hk o
  case inr hr => exact hr.right ▸ hm
  case inl hr =>
    have hs : Node.idsAll b.children ⊆ b.ids := by
      rw [Node.ids_eq]
      exact List.subset_cons_self _ _
    rw [hr]
    exact Leaf.seek_mem (fun _ hl => Node.placed_leavesAmong (by simp) b.id_mem_ids _ hs hl) hm
      (none, o)

end Block

end Tree

end RichText
