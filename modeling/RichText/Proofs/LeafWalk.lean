import RichText.Proofs.Around

namespace RichText

-- Going on from a node by `next` leads through the listed nodes, one after the other, and then
-- nowhere.
inductive Visits (next : NodeId → Option NodeId) : NodeId → List NodeId → Prop
  | last (h : next i = none) : Visits next i [i]
  | step (h : next i = some j) (rest : Visits next j is) : Visits next i (i :: is)

theorem Visits.of_head? {next : NodeId → Option NodeId} (hs : is.head? = some i)
    (h : ∀ xs j ys, is = xs ++ j :: ys → next j = ys.head?) : Visits next i is := by
  induction is generalizing i with
  | nil => contradiction
  | cons j is ih =>
    cases hs
    have hn := h [] _ is rfl
    cases is with
    | nil => exact .last hn
    | cons k is => exact .step hn (ih rfl fun xs _ ys e => h (_ :: xs) _ ys (congrArg (_ :: ·) e))

namespace Node

def tips (n : Node) : List Node :=
  n.preorder.filter (·.children.isEmpty)

def tipsAll (ns : List Node) : List Node :=
  (preorderAll ns).filter (·.children.isEmpty)

@[simp]
theorem tipsAll_nil : tipsAll [] = [] :=
  rfl

@[simp]
theorem tipsAll_cons (n : Node) (ns : List Node) : tipsAll (n :: ns) = n.tips ++ tipsAll ns := by
  simp [tipsAll, tips, preorderAll]

@[simp]
theorem tipsAll_append (ns ms : List Node) : tipsAll (ns ++ ms) = tipsAll ns ++ tipsAll ms := by
  simp [tipsAll]

theorem tips_of_childless {n : Node} (h : n.children = []) : n.tips = [n] := by
  simp [tips, preorder_eq, h, preorderAll]

theorem tips_of_children {n : Node} (h : n.children ≠ []) : n.tips = tipsAll n.children := by
  simp [tips, tipsAll, preorder_eq, h]

theorem head?_tips (n : Node) : n.tips.head? = some n.firstLeaf := by
  match n with
  | mk i k [] => rfl
  | mk i k (c :: cs) =>
    have hc : (mk i k (c :: cs)).children ≠ [] := List.cons_ne_nil c cs
    rw [tips_of_children hc, children_mk, tipsAll_cons, List.head?_append, head?_tips c]
    rfl
termination_by structural n

mutual

theorem getLast?_tips (n : Node) : n.tips.getLast? = some n.lastLeaf := by
  match n with
  | mk i k [] => rfl
  | mk i k (c :: cs) =>
    have hc : (mk i k (c :: cs)).children ≠ [] := List.cons_ne_nil c cs
    rw [tips_of_children hc, children_mk, tipsAll_cons, List.getLast?_append, getLast?_tips c,
      lastLeaf, lastLeafAmong, ← getLast?_tipsAll cs]
    cases (tipsAll cs).getLast? <;> rfl

theorem getLast?_tipsAll (ns : List Node) : (tipsAll ns).getLast?.getD n = lastLeafAmong n ns := by
  match ns with
  | [] => rfl
  | m :: ns =>
    rw [tipsAll_cons, List.getLast?_append, getLast?_tips m, lastLeafAmong, ← getLast?_tipsAll ns]
    cases (tipsAll ns).getLast? <;> rfl

end

end Node

namespace Location

open Node (tips tipsAll)

-- What is read after a node and all that is beneath it, on the way up from the node.
def tipsAfter : List Frame → List Node
  | [] => []
  | f :: path => tipsAll f.after ++ tipsAfter path

def tipsBefore : List Frame → List Node
  | [] => []
  | f :: path => tipsBefore path ++ tipsAll f.before.reverse

theorem tips_top (l : Location) :
    l.top.tips = tipsBefore l.path ++ l.node.tips ++ tipsAfter l.path := by
  obtain ⟨n, path⟩ := l
  induction path generalizing n with
  | nil => simp [top, tipsBefore, tipsAfter]
  | cons f path ih =>
    have hp : (f.plug n).tips = tipsAll f.before.reverse ++ (n.tips ++ tipsAll f.after) := by
      rw [Node.tips_of_children (by simp [Frame.plug]), Frame.plug, Node.children_mk,
        Node.tipsAll_append, Node.tipsAll_cons]
    calc
      (Location.mk (f.plug n) path).top.tips
        = tipsBefore path ++ (f.plug n).tips ++ tipsAfter path := ih (f.plug n)
      _ = tipsBefore (f :: path) ++ n.tips ++ tipsAfter (f :: path) := by
        simp [hp, tipsBefore, tipsAfter]

theorem id_ne_top {f : Frame} {path : List Frame} {n : Node}
    (hd : (Location.mk n (f :: path)).top.ids.Nodup) :
    n.id ≠ (Location.mk n (f :: path)).top.id := by
  have hn : n ∈ Node.preorderAll (f.plug n).children :=
    Node.mem_preorderAll_of_mem (by simp [Frame.plug])
  have hm := Node.preorderAll_children_subset (Location.node_mem_top ⟨f.plug n, path⟩) hn
  rw [Node.ids_eq, List.nodup_cons] at hd
  exact fun e => hd.left (Node.mem_idsAll_iff.mpr ⟨n, hm, e⟩)

section Climb

variable {l : Location} (hd : l.top.ids.Nodup) (above : List Frame)

include hd

-- The climb ends at the top, whatever is above it.
theorem nextLeaf?_top :
    (Location.mk l.node (l.path ++ above)).nextLeaf? l.top.id = (tipsAfter l.path).head? := by
  obtain ⟨n, path⟩ := l
  induction path generalizing n with
  | nil => cases above <;> simp [nextLeaf?, nextLeaf?.climb, tipsAfter, top]
  | cons f path ih =>
    have hi : n.id ≠ _ := id_ne_top hd
    have ih := ih (f.plug n) hd
    rw [nextLeaf?, List.cons_append, nextLeaf?.climb, if_neg hi, tipsAfter, List.head?_append]
    cases f.after with
    | nil => exact ih
    | cons m ms => simp [Node.head?_tips]

theorem prevLeaf?_top :
    (Location.mk l.node (l.path ++ above)).prevLeaf? l.top.id = (tipsBefore l.path).getLast? := by
  obtain ⟨n, path⟩ := l
  induction path generalizing n with
  | nil => cases above <;> simp [prevLeaf?, prevLeaf?.climb, tipsBefore, top]
  | cons f path ih =>
    have hi : n.id ≠ _ := id_ne_top hd
    have ih := ih (f.plug n) hd
    rw [prevLeaf?, List.cons_append, prevLeaf?.climb, if_neg hi, tipsBefore, List.getLast?_append]
    cases f.before with
    | nil => exact ih
    | cons m ms => simp [Node.getLast?_tips, List.getLast?_append]

end Climb

end Location

namespace Tree

variable {t : Tree} {scope i : NodeId} {b n : Node} {l : Location} {xs ys : List Node}

section Beneath

variable (wf : t.WellFormed) (hb : t.node? scope = some b)

include wf hb

theorem WellFormed.locate?_scope (hl : b.locate? i = some l) :
    (∃ above, t.locate? i = some ⟨l.node, l.path ++ above⟩) ∧ l.top.id = scope ∧
      l.top.ids.Nodup := by
  have ⟨lb, hlb, e⟩ := exists_locate? hb
  have ht := Node.top_of_locate? hl
  have h := wf.locate?_beneath hlb (ht.trans e.symm)
  rw [Node.id_of_locate? hl] at h
  exact ⟨⟨lb.path, h⟩, by rw [ht, id_of_node? hb], ht ▸ wf.nodup_ids hb⟩

theorem WellFormed.nextLeaf?_eq (hl : b.locate? i = some l) :
    t.nextLeaf? scope i = (Location.tipsAfter l.path).head?.map Node.id := by
  have ⟨⟨above, h⟩, hs, hd⟩ := wf.locate?_scope hb hl
  rw [nextLeaf?, h, Option.bind_some, ← hs, Location.nextLeaf?_top hd]

theorem WellFormed.prevLeaf?_eq (hl : b.locate? i = some l) :
    t.prevLeaf? scope i = (Location.tipsBefore l.path).getLast?.map Node.id := by
  have ⟨⟨above, h⟩, hs, hd⟩ := wf.locate?_scope hb hl
  rw [prevLeaf?, h, Option.bind_some, ← hs, Location.prevLeaf?_top hd]

-- A leaf parts the leaves of the scope into those before it and those after it.
theorem WellFormed.exists_of_tips (ht : b.tips = xs ++ n :: ys) :
    ∃ l, b.locate? n.id = some l ∧ Location.tipsBefore l.path = xs ∧
      Location.tipsAfter l.path = ys := by
  have hn : n ∈ b.tips := by simp [ht]
  have ⟨hn, hc⟩ := List.mem_filter.mp hn
  have ⟨l, hl⟩ := Option.isSome_iff_exists.mp
    (Node.locate?_isSome_iff.mpr (Node.mem_ids_iff.mpr ⟨n, hn, rfl⟩))
  have hp := Node.top_of_locate? hl
  have hd := wf.nodup_ids hb
  have e : l.node = n :=
    List.inj_on_of_nodup_map hd (hp ▸ l.node_mem_top) hn (Node.id_of_locate? hl)
  have hs : b.tips = Location.tipsBefore l.path ++ n :: Location.tipsAfter l.path := by
    rw [← hp, Location.tips_top, e, Node.tips_of_childless (by simpa using hc),
      List.append_assoc, List.singleton_append]
  have hd : (xs ++ n :: ys).Nodup := ht ▸ (List.Nodup.of_map _ hd).filter _
  have ⟨hx, hy⟩ : n ∉ xs ∧ n ∉ ys := by
    have hd := List.nodup_middle.mp hd
    simpa using (List.nodup_cons.mp hd).left
  have ⟨hx, _, hy⟩ := (List.append_cons_inj_of_notMem hx hy).mp (ht.symm.trans hs)
  exact ⟨l, hl, hx.symm, hy.symm⟩

end Beneath

-- The ids of the nodes without children at or beneath a node, in document order.
def leaves (t : Tree) (scope : NodeId) : List NodeId :=
  ((t.preorder scope).filter (·.children.isEmpty)).map Node.id

theorem leaves_of_node? (hb : t.node? scope = some b) : t.leaves scope = b.tips.map Node.id := by
  rw [leaves, preorder, hb, Option.map_some, Option.getD_some, Node.tips]

section Steps

variable (wf : t.WellFormed) (hb : t.node? scope = some b)

include wf hb

theorem WellFormed.beside_leaf {xs ys : List NodeId} (h : t.leaves scope = xs ++ i :: ys) :
    t.nextLeaf? scope i = ys.head? ∧ t.prevLeaf? scope i = xs.getLast? := by
  rw [leaves_of_node? hb] at h
  obtain ⟨xs, zs, ht, rfl, hz⟩ := List.map_eq_append_iff.mp h
  obtain ⟨n, ys, rfl, rfl, rfl⟩ := List.map_eq_cons_iff.mp hz
  have ⟨l, hl, hx, hy⟩ := wf.exists_of_tips hb ht
  rw [wf.nextLeaf?_eq hb hl, wf.prevLeaf?_eq hb hl, hx, hy, List.head?_map, List.getLast?_map]
  exact ⟨rfl, rfl⟩

theorem WellFormed.mem_leaves (hi : t.contains scope i)
    (h : t.nextLeaf? scope i = some j ∨ t.prevLeaf? scope i = some j) : j ∈ t.leaves scope := by
  have ⟨b', n, hb', hn, hm⟩ := wf.exists_of_contains hi
  cases hb.symm.trans hb'
  have ⟨l, hl⟩ := Option.isSome_iff_exists.mp
    (Node.locate?_isSome_iff.mpr (Node.mem_ids_iff.mpr ⟨n, hm, id_of_node? hn⟩))
  have ht := Node.top_of_locate? hl ▸ l.tips_top
  rw [wf.nextLeaf?_eq hb hl, wf.prevLeaf?_eq hb hl, Option.map_eq_some_iff,
    Option.map_eq_some_iff] at h
  rw [leaves_of_node? hb, List.mem_map]
  obtain ⟨m, hm, rfl⟩ | ⟨m, hm, rfl⟩ := h
  case inl => exact ⟨m, by simp [ht, List.mem_of_head? hm], rfl⟩
  case inr => exact ⟨m, by simp [ht, List.mem_of_getLast? hm], rfl⟩

end Steps

end Tree

end RichText
