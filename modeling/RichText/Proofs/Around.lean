import RichText.Proofs.Locate
import RichText.Proofs.Rebuild

namespace RichText

namespace Node

theorem preorderAll_children_subset {n m : Node} (h : m ∈ n.preorder) :
    preorderAll m.children ⊆ preorderAll n.children := by
  rw [preorder_eq] at h
  cases List.mem_cons.mp h
  case inl e => exact e ▸ List.Subset.refl _
  case inr h =>
    have hs := (preorderAll_sublist _ h).subset
    rw [preorder_eq] at hs
    exact fun _ hx => hs (.tail _ hx)

section Rebuild

variable {target : NodeId} {g : Node → Node}

def rebuild (target : NodeId) (g : Node → Node) (n : Node) : Node :=
  if n.id = target then g n else n.withChildren (substituteAll target (fun m => [g m]) n.children)

theorem substitute_eq_rebuild (n : Node) :
    n.substitute target (fun m => [g m]) = [n.rebuild target g] := by
  rw [rebuild]
  split
  case isTrue h => rw [← h, substitute_of_id]
  case isFalse h => rw [substitute_of_ne h]

theorem substituteAll_eq_map (ns : List Node) :
    substituteAll target (fun m => [g m]) ns = ns.map (rebuild target g) := by
  rw [substituteAll_eq_flatMap, List.map_eq_flatMap]
  exact List.flatMap_congr fun n _ => n.substitute_eq_rebuild

theorem rebuild_of_ne {n : Node} (h : n.id ≠ target) :
    n.rebuild target g = n.withChildren (n.children.map (rebuild target g)) := by
  rw [rebuild, if_neg h, substituteAll_eq_map]

theorem rebuild_of_not_mem {n : Node} (h : target ∉ n.ids) : n.rebuild target g = n := by
  have e := n.substitute_of_not_mem (f := fun m => [g m]) h
  rw [substitute_eq_rebuild] at e
  exact List.head_eq_of_cons_eq e

variable {cs : List Node} {n : Node}

@[simp]
theorem id_rebuild : (n.rebuild target (·.withChildren cs)).id = n.id := by
  rw [rebuild]
  split <;> rfl

@[simp]
theorem kind_rebuild : (n.rebuild target (·.withChildren cs)).kind = n.kind := by
  rw [rebuild]
  split <;> rfl

theorem rebuild_self : n.rebuild n.id (·.withChildren cs) = n.withChildren cs :=
  if_pos rfl

end Rebuild

end Node

namespace Frame

def rebuild (target : NodeId) (g : Node → Node) (f : Frame) : Frame :=
  { f with before := f.before.map (Node.rebuild target g), after := f.after.map (Node.rebuild target g) }

theorem rebuild_plug {f : Frame} {target : NodeId} (h : f.id ≠ target) (g : Node → Node)
    (n : Node) : (f.plug n).rebuild target g = (f.rebuild target g).plug (n.rebuild target g) := by
  have hi : (f.plug n).id ≠ target := h
  rw [Node.rebuild_of_ne hi]
  simp [plug, rebuild, Node.withChildren]

end Frame

namespace Location

def rebuild (target : NodeId) (g : Node → Node) (l : Location) : Location where
  node := l.node.rebuild target g
  path := l.path.map (Frame.rebuild target g)

theorem top_rebuild {l : Location} {target : NodeId} (h : ∀ a ∈ l.ancestors, a.1 ≠ target)
    (g : Node → Node) : (l.rebuild target g).top = l.top.rebuild target g := by
  have ⟨n, path⟩ := l
  induction path generalizing n with
  | nil => rfl
  | cons f path ih =>
    simp only [ancestors, List.map_cons, List.forall_mem_cons] at h
    have e : (Location.mk (f.plug n) path).top.rebuild target g =
        (Location.mk ((f.plug n).rebuild target g) (path.map (Frame.rebuild target g))).top :=
      (ih (f.plug n) h.right).symm
    rw [Frame.rebuild_plug h.left] at e
    exact e.symm

theorem ancestors_rebuild {l : Location} : (l.rebuild target g).ancestors = l.ancestors := by
  simp [rebuild, ancestors, Frame.rebuild, Function.comp_def]

theorem parent?_rebuild {l : Location} : (l.rebuild target g).parent? = l.parent? := by
  cases h : l.path <;> simp [rebuild, parent?, h, Frame.rebuild]

theorem lineage_rebuild {l : Location} :
    (l.rebuild target (·.withChildren cs)).lineage = l.lineage := by
  rw [lineage, ancestors_rebuild]
  simp [rebuild, lineage]

theorem node_rebuild {l : Location} : (l.rebuild target g).node = l.node.rebuild target g :=
  rfl

theorem exists_of_mem_lineage (l : Location) {a : NodeId × Kind} (h : a ∈ l.lineage) :
    ∃ m ∈ l.top.preorder, m.id = a.1 ∧ m.kind = a.2 ∧ l.node ∈ m.preorder := by
  obtain ⟨n, path⟩ := l
  induction path generalizing n with
  | nil =>
    cases List.mem_singleton.mp h
    exact ⟨n, n.mem_preorder_self, rfl, rfl, n.mem_preorder_self⟩
  | cons f path ih =>
    have hn : n ∈ (f.plug n).preorder :=
      Node.mem_preorder_of_child (by simp [Frame.plug]) n.mem_preorder_self
    have hs := Location.node_mem_top ⟨f.plug n, path⟩
    rw [lineage, ancestors, List.map_cons] at h
    cases List.mem_cons.mp h
    case inl e => exact ⟨n, Node.mem_preorder_trans hs hn, e ▸ rfl, e ▸ rfl, n.mem_preorder_self⟩
    case inr h =>
      obtain ⟨m, hm, hi, hk, hp⟩ := ih (f.plug n) h
      exact ⟨m, hm, hi, hk, Node.mem_preorder_trans hp hn⟩

theorem lineage_eq_append (l : Location) : ∃ upper, l.lineage = upper ++ [(l.top.id, l.top.kind)] ∧
    ∀ a ∈ upper, ∃ m ∈ Node.preorderAll l.top.children, m.id = a.1 ∧ m.kind = a.2 := by
  have ⟨n, path⟩ := l
  induction path generalizing n with
  | nil => exact ⟨[], rfl, nofun⟩
  | cons f path ih =>
    have ⟨upper, hu, hm⟩ := ih (f.plug n)
    have hs := Location.node_mem_top ⟨f.plug n, path⟩
    refine ⟨(n.id, n.kind) :: upper, congrArg ((n.id, n.kind) :: ·) hu, ?_⟩
    rw [List.forall_mem_cons]
    refine ⟨⟨n, ?_, rfl, rfl⟩, hm⟩
    have hn : n ∈ Node.preorderAll (f.plug n).children :=
      Node.mem_preorderAll_of_mem (by simp [Frame.plug])
    exact Node.preorderAll_children_subset hs hn

end Location

namespace Tree

variable {t t' : Tree} {block i : NodeId} {b n : Node} {cs : List Node} {l : Location}

theorem top_of_locate? (h : t.locate? i = some l) : l.top ∈ t.roots := by
  have ⟨r, hr, hrl⟩ := List.exists_of_findSome?_eq_some h
  exact Node.top_of_locate? hrl ▸ hr

theorem node_of_locate? (h : t.locate? i = some l) : t.node? i = some l.node := by
  rw [node?, h, Option.map_some]

theorem id_of_locate? (h : t.locate? i = some l) : l.node.id = i :=
  id_of_node? (node_of_locate? h)

theorem lineage_of_locate? (h : t.locate? i = some l) : t.lineage i = l.lineage := by
  rw [lineage, h, Option.map_some, Option.getD_some]

theorem exists_locate? (h : t.node? i = some n) : ∃ l, t.locate? i = some l ∧ l.node = n :=
  Option.map_eq_some_iff.mp h

theorem lineage_eq_cons (h : t.node? i = some n) :
    ∃ upper, t.lineage i = (i, n.kind) :: upper := by
  have ⟨l, hl, e⟩ := exists_locate? h
  exact ⟨l.ancestors, by rw [lineage_of_locate? hl, Location.lineage, id_of_locate? hl, e]⟩

theorem WellFormed.lineage_beneath (wf : t.WellFormed) (hb : t.node? block = some b)
    (hn : n ∈ b.preorder) : ∃ upper, t.lineage n.id = upper ++ t.lineage block ∧
      ∀ a ∈ upper, ∃ m ∈ Node.preorderAll b.children, m.id = a.1 ∧ m.kind = a.2 := by
  have ⟨lb, hlb, e⟩ := exists_locate? hb
  have hm : n.id ∈ b.ids := Node.mem_ids_iff.mpr ⟨n, hn, rfl⟩
  have ⟨l, hl⟩ := Option.isSome_iff_exists.mp (Node.locate?_isSome_iff.mpr hm)
  have ht := Node.top_of_locate? hl
  have ⟨upper, hu, hm⟩ := l.lineage_eq_append
  have hli := wf.locate?_beneath hlb (ht.trans e.symm)
  rw [Node.id_of_locate? hl] at hli
  refine ⟨upper, ?_, ht ▸ hm⟩
  rw [lineage_of_locate? hli, lineage_of_locate? hlb, Location.lineage, Location.ancestors,
    List.map_append, ← List.cons_append]
  change l.lineage ++ lb.ancestors = upper ++ lb.lineage
  rw [hu, ht, Location.lineage, e, List.append_assoc, List.singleton_append]

theorem WellFormed.exists_of_contains (wf : t.WellFormed) (h : t.contains block i) :
    ∃ b n, t.node? block = some b ∧ t.node? i = some n ∧ n ∈ b.preorder := by
  cases hl : t.locate? i with
  | none => simp [contains, lineage, hl] at h
  | some l =>
    rw [contains, lineage_of_locate? hl, List.any_eq_true] at h
    have ⟨a, ha, hi⟩ := h
    have ⟨b, hb, hi', _, hn⟩ := l.exists_of_mem_lineage ha
    have hbr : b ∈ Node.preorderAll t.roots :=
      (Node.preorderAll_sublist _ (Node.mem_preorderAll_of_mem (top_of_locate? hl))).subset hb
    have hi : b.id = block := hi'.trans (by simpa using hi)
    exact ⟨b, l.node, hi ▸ node?_of_mem wf.nodup hbr, node_of_locate? hl, hn⟩

theorem WellFormed.contains_iff (wf : t.WellFormed) (hb : t.node? block = some b)
    (hn : t.node? i = some n) : t.contains block i ↔ n ∈ b.preorder := by
  constructor
  case mp =>
    intro h
    have ⟨_, _, hb', hn', hm⟩ := wf.exists_of_contains h
    cases hb.symm.trans hb'
    cases hn.symm.trans hn'
    exact hm
  case mpr =>
    intro h
    have ⟨upper, hu, _⟩ := wf.lineage_beneath hb h
    have ⟨above, ha⟩ := lineage_eq_cons hb
    rw [id_of_node? hn] at hu
    simp [contains, hu, ha]

structure Unmoved (t t' : Tree) (i : NodeId) : Prop where
  kind : t'.kind? i = t.kind? i
  parent : t'.parent? i = t.parent? i
  children : (t'.children i).map Node.id = (t.children i).map Node.id

theorem Unmoved.refl (t : Tree) (i : NodeId) : t.Unmoved t i :=
  ⟨rfl, rfl, rfl⟩

theorem Unmoved.trans {t'' : Tree} (h : t.Unmoved t' i) (h' : t'.Unmoved t'' i) :
    t.Unmoved t'' i :=
  ⟨h'.kind.trans h.kind, h'.parent.trans h.parent, h'.children.trans h.children⟩

namespace Rebuilt

variable (h : t.Rebuilt t' block cs)

include h

theorem locate? (hl : t.locate? i = some l) (ho : ∀ a ∈ l.ancestors, a.1 ≠ block) :
    t'.locate? i = some (l.rebuild block (·.withChildren cs)) := by
  have ⟨extra, hr, _⟩ := h.roots
  have ht : (l.rebuild block (·.withChildren cs)).top ∈ t'.roots := by
    rw [Location.top_rebuild ho, hr, Node.substituteAll_eq_map]
    exact List.mem_append_left _ (List.mem_map_of_mem (top_of_locate? hl))
  have hi : (l.rebuild block (·.withChildren cs)).node.id = i := by
    rw [Location.node_rebuild, Node.id_rebuild, id_of_locate? hl]
  exact hi ▸ h.wf.locate?_of_top ht

theorem node?_of_outside (hn : t.node? i = some n) (ho : t.contains block i = false) :
    t'.node? i = some (n.rebuild block (·.withChildren cs)) := by
  have ⟨l, hl, e⟩ := exists_locate? hn
  rw [contains, lineage_of_locate? hl, Location.lineage, List.any_cons, Bool.or_eq_false_iff] at ho
  rw [node_of_locate? (h.locate? hl (by simpa using ho.right)), Location.node_rebuild, e]

theorem lineage_of_outside (hn : t.node? i = some n) (ho : t.contains block i = false) :
    t'.lineage i = t.lineage i := by
  have ⟨l, hl, e⟩ := exists_locate? hn
  rw [contains, lineage_of_locate? hl, Location.lineage, List.any_cons, Bool.or_eq_false_iff] at ho
  rw [lineage_of_locate? (h.locate? hl (by simpa using ho.right)), lineage_of_locate? hl,
    Location.lineage_rebuild]

theorem unmoved (hn : t.node? i = some n) (ho : t.contains block i = false) :
    t.Unmoved t' i := by
  have ⟨l, hl, e⟩ := exists_locate? hn
  have hn' := h.node?_of_outside hn ho
  rw [contains, lineage_of_locate? hl, Location.lineage, List.any_cons, Bool.or_eq_false_iff] at ho
  have hl' := h.locate? hl (by simpa using ho.right)
  have hi : n.id ≠ block := by simpa [e] using ho.left
  constructor
  case kind => simp [kind?, hn, hn']
  case parent => simp only [parent?, hl, hl', Option.bind_some, Location.parent?_rebuild]
  case children =>
    rw [children_of_node? hn, children_of_node? hn', Node.rebuild_of_ne hi]
    simp

end Rebuilt

end Tree

end RichText
