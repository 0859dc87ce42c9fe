import RichText.Proofs.Rearranged

namespace RichText

namespace Node

-- The ids of the children of every node, as they stand in a list of nodes and beneath them.
def links (ns : List Node) : List (NodeId × List NodeId) :=
  (preorderAll ns).map fun n => (n.id, n.children.map id)

@[simp]
theorem links_nil : links [] = [] :=
  rfl

@[simp]
theorem links_cons (n : Node) (ns : List Node) :
    links (n :: ns) = (n.id, n.children.map id) :: links n.children ++ links ns := by
  simp [links, preorderAll, preorder_eq]

@[simp]
theorem links_append (ns ms : List Node) : links (ns ++ ms) = links ns ++ links ms := by
  simp [links]

def unlink (i : NodeId) (l : NodeId × List NodeId) : NodeId × List NodeId :=
  (l.1, l.2.filter (· ≠ i))

theorem map_unlink_of_not_mem {ns : List Node} (h : i ∉ idsAll ns) :
    (links ns).map (unlink i) = links ns := by
  have hm : ∀ n ∈ preorderAll ns, ∀ c ∈ n.children, c.id ≠ i := by
    intro n hn c hc e
    refine h (e ▸ mem_idsAll_iff.mpr ⟨c, ?_, rfl⟩)
    exact (preorderAll_sublist _ hn).subset (mem_preorder_of_child hc c.mem_preorder_self)
  refine (List.map_congr_left fun l hl => ?_).trans (List.map_id _)
  obtain ⟨n, hn, rfl⟩ := List.mem_map.mp hl
  refine Prod.ext rfl (List.filter_eq_self.mpr ?_)
  simpa using fun c hc e => hm n hn c hc e

theorem map_id_remove (i : NodeId) (ns : List Node) :
    (substituteAll i (fun _ => []) ns).map id = (ns.map id).filter (· ≠ i) := by
  induction ns with
  | nil => rfl
  | cons n ns ih =>
    obtain ⟨j, k, cs⟩ := n
    rw [substituteAll, substitute, List.map_append, ih, List.map_cons, List.filter_cons]
    split <;> simp_all

theorem links_substituteAll_remove (ms : List Node) (hd : (idsAll ms).Nodup)
    (hn : n ∈ preorderAll ms) :
    (links (substituteAll n.id (fun _ => []) ms) ++ links [n]).Perm
      ((links ms).map (unlink n.id)) := by
  refine substituteAll_induction (motive := fun ms ns =>
    (links ns ++ links [n]).Perm ((links ms).map (unlink n.id))) ?self ?within ?among ms hd hn
  case self =>
    have hs := hd.sublist (ids_sublist_of_mem_preorderAll hn)
    rw [ids_eq, List.nodup_cons] at hs
    have hf : (n.children.map id).filter (· ≠ n.id) = n.children.map id := by
      refine List.filter_eq_self.mpr fun j hj => decide_eq_true fun e => ?_
      obtain ⟨c, hc, rfl⟩ := List.mem_map.mp hj
      exact hs.left (e ▸ id_mem_idsAll hc)
    simp only [links_cons, links_nil, List.append_nil, List.nil_append, List.map_cons,
      map_unlink_of_not_mem hs.left, unlink, hf]
    exact .refl _
  case within =>
    intro m _ _ h
    simp only [links_cons, links_nil, List.append_nil, List.map_cons, id_withChildren,
      children_withChildren, map_id_remove, unlink, List.cons_append] at h ⊢
    exact h.cons _
  case among =>
    intro as ms ns bs ha hb h
    rw [← List.append_nil ((links ms).map _)] at h
    simpa [map_unlink_of_not_mem ha, map_unlink_of_not_mem hb] using
      perm_amid (links as) (links bs) h

section Modify

variable {g : Node → Node} {out fresh : List (NodeId × List NodeId)}

theorem map_id_modify (hg : ∀ m, (g m).id = m.id) (i : NodeId) (ns : List Node) :
    (substituteAll i (fun n => [g n]) ns).map id = ns.map id := by
  induction ns with
  | nil => rfl
  | cons n ns ih =>
    obtain ⟨j, k, cs⟩ := n
    rw [substituteAll, substitute, List.map_append, ih, List.map_cons]
    split <;> simp [hg]

theorem links_substituteAll_modify (ms : List Node) (hd : (idsAll ms).Nodup)
    (hn : n ∈ preorderAll ms) (hg : ∀ m, (g m).id = m.id)
    (hp : (links [g n] ++ out).Perm (links [n] ++ fresh)) :
    (links (substituteAll n.id (fun n => [g n]) ms) ++ out).Perm (links ms ++ fresh) := by
  refine substituteAll_induction (motive := fun ms ns =>
    (links ns ++ out).Perm (links ms ++ fresh)) hp ?within ?among ms hd hn
  case within =>
    intro m _ _ h
    simp only [links_cons, links_nil, List.append_nil, id_withChildren, children_withChildren,
      map_id_modify hg, List.cons_append] at h ⊢
    exact h.cons _
  case among =>
    intro as ms ns bs _ _ h
    simpa using perm_amid (links as) (links bs) h

end Modify

end Node

namespace Tree

variable {t : Tree} {i p c : NodeId}

def childIds (t : Tree) (p : NodeId) : List NodeId :=
  (t.children p).map Node.id

-- Parents and child lists agree: a node is in the child list of its parent, once, and in no other. No
-- way downward comes back to where it began, and every way downward or upward ends.
structure Linked (t : Tree) : Prop where
  made_iff : ∀ i, (t.node? i).isSome ↔ i.index < t.made
  child_lt : ∀ p, ∀ c ∈ t.childIds p, c.index < t.made
  parent_lt : ∀ c, ∀ p ∈ t.parent? c, p.index < t.made
  parent_iff : ∀ c p, t.parent? c = some p ↔ c ∈ t.childIds p
  once : ∀ p, (t.childIds p).Nodup
  acyclic : ∀ i, ¬Relation.TransGen (fun p c => t.parent? c = some p) i i
  downward : WellFounded fun c p => t.parent? c = some p
  upward : WellFounded fun p c => t.parent? c = some p

theorem childIds_of_node? (h : t.node? p = some n) : t.childIds p = n.children.map Node.id := by
  rw [childIds, children_of_node? h]

theorem exists_of_parent? (h : t.parent? c = some p) :
    ∃ w n, t.node? c = some n ∧ w ∈ Node.preorderAll t.roots ∧ w.id = p ∧ n ∈ w.children := by
  have ⟨⟨n, path⟩, hl, hp⟩ := Option.bind_eq_some_iff.mp h
  match path with
  | f :: path =>
    have ht := top_of_locate? hl
    have hm : f.plug n ∈ (Location.mk (f.plug n) path).top.preorder := Location.node_mem_top _
    refine ⟨f.plug n, n, node_of_locate? hl, ?_, Option.some.inj hp, by simp [Frame.plug]⟩
    exact (Node.preorderAll_sublist _ (Node.mem_preorderAll_of_mem ht)).subset hm

namespace WellFormed

variable (wf : t.WellFormed)

include wf

theorem isSome_node?_iff (i : NodeId) : (t.node? i).isSome ↔ i.index < t.made := by
  constructor
  case mp =>
    intro h
    have ⟨n, hn⟩ := Option.isSome_iff_exists.mp h
    exact (wf.mem_iff i).mp (Node.mem_idsAll_iff.mpr ⟨n, mem_of_node? hn, id_of_node? hn⟩)
  case mpr => exact fun h => Option.isSome_iff_exists.mpr (wf.exists_node? h)

theorem childIds_of_le (h : t.made ≤ p.index) : t.childIds p = [] := by
  have h := mt (wf.isSome_node?_iff p).mp (Nat.not_lt.mpr h)
  simp_all [childIds, children]

theorem parent?_iff (c p : NodeId) : t.parent? c = some p ↔ c ∈ t.childIds p := by
  constructor
  case mp =>
    intro h
    obtain ⟨w, n, hn, hw, rfl, hc⟩ := exists_of_parent? h
    rw [childIds_of_node? (node?_of_mem wf.nodup hw)]
    exact id_of_node? hn ▸ List.mem_map_of_mem hc
  case mpr =>
    intro h
    cases hp : t.node? p with
    | none => simp [childIds, children, hp] at h
    | some w =>
      rw [childIds_of_node? hp] at h
      obtain ⟨n, hn, rfl⟩ := List.mem_map.mp h
      exact id_of_node? hp ▸ wf.parent?_of_child (mem_of_node? hp) hn

theorem length_preorder_lt (h : t.parent? c = some p) :
    (t.preorder c).length < (t.preorder p).length := by
  obtain ⟨w, n, hn, hw, rfl, hc⟩ := exists_of_parent? h
  rw [preorder, preorder, hn, node?_of_mem wf.nodup hw]
  have hs := Node.preorderAll_sublist _ (Node.mem_preorderAll_of_mem hc)
  simpa [Node.preorder_eq w] using Nat.lt_succ_of_le hs.length_le

theorem wellFounded_child : WellFounded fun c p => t.parent? c = some p :=
  Subrelation.wf (fun h => wf.length_preorder_lt h) (measure fun i => (t.preorder i).length).wf

theorem wellFounded_parent : WellFounded fun p c => t.parent? c = some p := by
  have hle (i : NodeId) : (t.preorder i).length ≤ (Node.preorderAll t.roots).length := by
    rw [preorder]
    cases hi : t.node? i with
    | none => exact Nat.zero_le _
    | some n => exact (Node.preorderAll_sublist _ (mem_of_node? hi)).length_le
  refine Subrelation.wf (fun {p c} h => ?_)
    (measure fun i => (Node.preorderAll t.roots).length - (t.preorder i).length).wf
  exact Nat.sub_lt_sub_left (Nat.lt_of_lt_of_le (wf.length_preorder_lt h) (hle p))
    (wf.length_preorder_lt h)

theorem linked : t.Linked where
  made_iff := wf.isSome_node?_iff
  child_lt p c hc := by
    obtain ⟨_, n, hn, _⟩ := exists_of_parent? ((wf.parent?_iff c p).mpr hc)
    exact (wf.isSome_node?_iff c).mp (by simp [hn])
  parent_lt c p hp := by
    obtain ⟨w, _, _, hw, rfl, _⟩ := exists_of_parent? hp
    exact (wf.isSome_node?_iff _).mp (by simp [node?_of_mem wf.nodup hw])
  parent_iff := wf.parent?_iff
  once p := by
    cases hp : t.node? p with
    | none => simp [childIds, children, hp]
    | some w =>
      have hd := wf.nodup_ids hp
      rw [Node.ids_eq, List.nodup_cons] at hd
      rw [childIds_of_node? hp]
      exact (List.nodup_append.mp ((Node.idsAll_perm_children _).nodup_iff.mp hd.right)).left
  acyclic _ h := wf.wellFounded_parent.transGen.asymmetric _ _ h h
  downward := wf.wellFounded_child
  upward := wf.wellFounded_parent

theorem mem_links_iff (hi : p.index < t.made) (cs : List NodeId) :
    (p, cs) ∈ Node.links t.roots ↔ t.childIds p = cs := by
  have ⟨n, hn⟩ := wf.exists_node? hi
  rw [childIds_of_node? hn, Node.links, List.mem_map]
  constructor
  case mp =>
    rintro ⟨m, hm, e⟩
    have e := Prod.mk.inj e
    rw [← e.right, Node.eq_of_id_eq wf.nodup hm (mem_of_node? hn) (e.left.trans (id_of_node? hn).symm)]
  case mpr => exact fun e => ⟨n, mem_of_node? hn, by rw [id_of_node? hn, e]⟩

theorem childIds_insert {q : NodeId} (hc : c.index < t.made) (hp : p.index < t.made)
    (hu : t.contains c p = false) (hq : q.index < t.made) (index : Nat) :
    (t.insert p index c).childIds q =
      let cs := (t.childIds q).filter (· ≠ c)
      if q = p then cs.take index ++ c :: cs.drop index else cs := by
  have hcon := wf.conserves_insert p index c
  have ⟨w, hw⟩ := wf.exists_node? hp
  have ⟨n, hn⟩ := wf.exists_node? hc
  obtain ⟨_, hd, m, hm, rfl⟩ := wf.remove_of_not_contains hn hw hu
  have hi := id_of_node? hn
  let g (m : Node) := m.withChildren (m.children.take index ++ n :: m.children.drop index)
  let rest := Node.substituteAll c (fun _ => []) t.roots
  let old := m.children.map Node.id
  let new := old.take index ++ c :: old.drop index
  have ht : t.insert m.id index c =
      ⟨Node.substituteAll m.id (fun m => [g m]) rest, t.made⟩ := by
    rw [insert, hw, hn]
    simp only [hu]
    rfl
  have hrest : (Node.links rest ++ Node.links [n]).Perm
      ((Node.links t.roots).map (Node.unlink c)) := by
    have h := Node.links_substituteAll_remove t.roots wf.nodup (mem_of_node? hn)
    rwa [hi] at h
  have hmove : (Node.links (Node.substituteAll m.id (fun m => [g m]) rest) ++ [(m.id, old)]).Perm
      (Node.links rest ++ (m.id, new) :: Node.links [n]) := by
    refine Node.links_substituteAll_modify _ hd hm (fun _ => rfl) (List.perm_iff_count.mpr fun l => ?_)
    have := congrArg (fun ns => (Node.links ns).count l) (List.take_append_drop index m.children)
    simp only [Node.links_append, List.count_append] at this
    simp [g, old, new, hi, List.count_cons]
    omega
  have hold : old = (t.childIds m.id).filter (· ≠ c) := by
    have h : (m.id, old) ∈ Node.links rest := List.mem_map.mpr ⟨m, hm, rfl⟩
    have ⟨l, hl, e⟩ := List.mem_map.mp (hrest.subset (List.mem_append_left _ h))
    have ⟨h, h'⟩ := Prod.mk.inj e
    rw [← h', (wf.mem_links_iff hp l.2).mp (h ▸ hl)]
  rw [← (hcon.wf wf).mem_links_iff (Nat.lt_of_lt_of_le hq hcon.le), ht]
  have hmem {l : NodeId × List NodeId} (h : l ∈ Node.links rest ++ (m.id, new) :: Node.links [n])
      (hne : l ≠ (m.id, old)) : l ∈ Node.links (Node.substituteAll m.id (fun m => [g m]) rest) :=
    (List.mem_append.mp (hmove.symm.subset h)).resolve_right (by simpa using hne)
  simp only
  split
  case isTrue e =>
    subst e
    rw [← hold]
    refine hmem (by simp [new]) fun e => ?_
    have := congrArg (fun l => l.2.length) e
    simp at this
    omega
  case isFalse hne =>
    refine hmem ?_ fun e => hne (congrArg Prod.fst e)
    have h := List.mem_map_of_mem (f := Node.unlink c) ((wf.mem_links_iff hq _).mpr rfl)
    have h := hrest.symm.subset h
    simp only [List.mem_append, List.mem_cons] at h ⊢
    exact h.imp_right .inr

theorem parent?_insert {x : NodeId} (hc : c.index < t.made) (hp : p.index < t.made)
    (hu : t.contains c p = false) (hx : x ≠ c) (index : Nat) :
    (t.insert p index c).parent? x = t.parent? x := by
  have hcon := wf.conserves_insert p index c
  have hm := made_insert t p index c
  refine Option.ext fun q => ?_
  rw [(hcon.wf wf).parent?_iff, wf.parent?_iff]
  cases Nat.lt_or_ge q.index t.made with
  | inl hq =>
    have hm : x ∈ (t.childIds q).filter (· ≠ c) ↔ x ∈ t.childIds q := by simp [hx]
    rw [wf.childIds_insert hc hp hu hq, ← hm]
    generalize (t.childIds q).filter (· ≠ c) = cs
    simp only
    split
    case isFalse => rfl
    case isTrue =>
      conv => rhs; rw [← List.take_append_drop index cs]
      simp only [List.mem_append, List.mem_cons, hx, false_or]
  | inr hq =>
    rw [wf.childIds_of_le hq, (hcon.wf wf).childIds_of_le (hm ▸ hq)]

theorem lineage_eq (i : NodeId) : t.lineage i =
    ((t.kind? i).map (i, ·)).toList ++ ((t.parent? i).map t.lineage).getD [] := by
  cases hl : t.locate? i with
  | none => simp [lineage, kind?, node?, parent?, hl]
  | some l =>
    obtain rfl := id_of_locate? hl
    rw [lineage_of_locate? hl, kind?, node_of_locate? hl, parent?, hl]
    obtain ⟨n, path⟩ := l
    cases path with
    | nil => rfl
    | cons f path =>
      have ht : (Location.mk n (f :: path)).top ∈ t.roots := top_of_locate? hl
      have hl' := wf.locate?_of_top (l := ⟨f.plug n, path⟩) ht
      simp only [Option.bind_some, Location.parent?, List.head?_cons, Option.map_some,
        Option.getD_some]
      exact congrArg ((n.id, n.kind) :: ·) (lineage_of_locate? hl').symm

theorem contains_of_parent? (h : t.parent? c = some p) (a : NodeId) :
    t.contains a c = (decide (c = a) || t.contains a p) := by
  have ⟨n, hn⟩ := wf.exists_node? ((wf.isSome_node?_iff c).mp (by
    have ⟨_, n, hn, _⟩ := exists_of_parent? h
    simp [hn]))
  simp [contains, wf.lineage_eq c, kind?, hn, h]

theorem contains_of_root (hc : c.index < t.made) (h : t.parent? c = none) (a : NodeId) :
    t.contains a c = decide (c = a) := by
  have ⟨n, hn⟩ := wf.exists_node? hc
  simp [contains, wf.lineage_eq c, kind?, hn, h]

theorem kind?_eq_some : t.kind? i = some k ↔
    (i, k) ∈ (Node.preorderAll t.roots).map fun n => (n.id, n.kind) := by
  simp only [kind?, Option.map_eq_some_iff, List.mem_map, Prod.mk.injEq]
  constructor
  case mp =>
    rintro ⟨n, hn, hk⟩
    exact ⟨n, mem_of_node? hn, id_of_node? hn, hk⟩
  case mpr =>
    rintro ⟨n, hn, rfl, hk⟩
    exact ⟨n, node?_of_mem wf.nodup hn, hk⟩

theorem kind?_of_perm_append {t' : Tree} {out fresh : List (NodeId × Kind)} (wf' : t'.WellFormed)
    (h : ((Node.preorderAll t'.roots).map (fun n => (n.id, n.kind)) ++ out).Perm
      ((Node.preorderAll t.roots).map (fun n => (n.id, n.kind)) ++ fresh))
    (ho : i ∉ out.map Prod.fst) (hf : i ∉ fresh.map Prod.fst) : t'.kind? i = t.kind? i := by
  refine Option.ext fun k => ?_
  have hm := h.mem_iff (a := (i, k))
  have ho : (i, k) ∉ out := fun h => ho (List.mem_map_of_mem h)
  have hf : (i, k) ∉ fresh := fun h => hf (List.mem_map_of_mem h)
  rw [List.mem_append, List.mem_append, or_iff_left ho, or_iff_left hf] at hm
  rw [wf'.kind?_eq_some, wf.kind?_eq_some, hm]

theorem kind?_of_perm {t' : Tree} (wf' : t'.WellFormed)
    (h : ((Node.preorderAll t'.roots).map fun n => (n.id, n.kind)).Perm
      ((Node.preorderAll t.roots).map fun n => (n.id, n.kind))) (i : NodeId) :
    t'.kind? i = t.kind? i :=
  wf.kind?_of_perm_append wf' (h.append_right []) List.not_mem_nil List.not_mem_nil

-- What happens to the parent of one node changes nothing above those that are not beneath it.
theorem lineage_of_parents {t' : Tree} {x : NodeId} (wf' : t'.WellFormed)
    (hk : ∀ x, t'.kind? x = t.kind? x) (hp : ∀ x ≠ c, t'.parent? x = t.parent? x)
    (hx : x.index < t.made) (hxc : t.contains c x = false) : t'.lineage x = t.lineage x := by
  induction x using wf.wellFounded_parent.induction with
  | _ x ih =>
    rw [wf.lineage_eq x, wf'.lineage_eq x, hk]
    cases h : t.parent? x with
    | none =>
      have hne : x ≠ c := by simpa [wf.contains_of_root hx h] using hxc
      rw [hp x hne, h]
      rfl
    | some q =>
      rw [wf.contains_of_parent? h, Bool.or_eq_false_iff] at hxc
      rw [hp x (by simpa using hxc.left), h, Option.map_some, Option.map_some,
        ih q h (wf.linked.parent_lt x q h) hxc.right]

theorem contains_insert {x : NodeId} (hc : c.index < t.made) (hp : p.index < t.made)
    (hu : t.contains c p = false) (hx : x.index < t.made) (hxc : t.contains c x = false)
    (index : Nat) (a : NodeId) : (t.insert p index c).contains a x = t.contains a x := by
  have wf' := (wf.conserves_insert p index c).wf wf
  have hk := wf.kind?_of_perm wf' (wf.map_insert_perm (fun _ _ => rfl) p index c)
  rw [contains, contains, wf.lineage_of_parents wf' hk
    (fun _ hne => wf.parent?_insert hc hp hu hne index) hx hxc]

theorem childIds_of_locate? {f : Frame} {path : List Frame}
    (hl : t.locate? i = some ⟨n, f :: path⟩) :
    t.childIds f.id = f.before.reverse.map Node.id ++ i :: f.after.map Node.id := by
  have hp : (Location.mk n (f :: path)).top ∈ t.roots := top_of_locate? hl
  have hp : t.node? f.id = some (f.plug n) :=
    node_of_locate? (wf.locate?_of_top (l := ⟨f.plug n, path⟩) hp)
  have hi : n.id = i := id_of_locate? hl
  rw [childIds_of_node? hp, ← hi]
  simp [Frame.plug]

end WellFormed

end Tree

end RichText
