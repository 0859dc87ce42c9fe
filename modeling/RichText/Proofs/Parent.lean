import RichText.Proofs.Identity

namespace RichText

namespace Node

mutual

theorem ids_perm_children (n : Node) :
    n.ids.Perm (n.id :: n.preorder.flatMap (·.children.map id)) := by
  have ⟨i, k, cs⟩ := n
  simpa [preorder] using idsAll_perm_children cs

theorem idsAll_perm_children (ns : List Node) :
    (idsAll ns).Perm (ns.map id ++ (preorderAll ns).flatMap (·.children.map id)) := by
  match ns with
  | [] => exact .nil
  | n :: ns =>
    refine List.perm_iff_count.mpr fun i => ?_
    have hn := (ids_perm_children n).count_eq i
    have hns := (idsAll_perm_children ns).count_eq i
    simp [preorderAll, List.count_cons] at hn hns ⊢
    omega

end

section Children

variable {ns : List Node} {w w' n n' : Node}

theorem eq_of_children (h : (idsAll ns).Nodup) (hw : w ∈ preorderAll ns)
    (hw' : w' ∈ preorderAll ns) (hn : n ∈ w.children) (hn' : n' ∈ w'.children)
    (e : n.id = n'.id) : w = w' := by
  have hd := (idsAll_perm_children ns).nodup_iff.mp h
  have hp := (List.nodup_flatMap.mp (List.nodup_append.mp hd).right.left).right
  by_contra hne
  have hs : Std.Symm (Function.onFun List.Disjoint fun w : Node => w.children.map id) :=
    ⟨fun _ _ h => List.disjoint_symm h⟩
  have := hp.forall hw hw' hne
  exact this (List.mem_map_of_mem hn) (e ▸ List.mem_map_of_mem hn')

theorem id_ne_of_child (h : (idsAll ns).Nodup) (hr : r ∈ ns) (hw : w ∈ preorderAll ns)
    (hn : n ∈ w.children) : r.id ≠ n.id := by
  have hd := (idsAll_perm_children ns).nodup_iff.mp h
  refine (List.nodup_append.mp hd).right.right _ (List.mem_map_of_mem hr) _ ?_
  exact List.mem_flatMap.mpr ⟨w, hw, List.mem_map_of_mem hn⟩

end Children

section Beneath

variable {b : Node} {target : NodeId} {f : Node → List Node}

mutual

theorem substitute_beneath (n : Node) (hd : n.ids.Nodup) (hb : b ∈ n.preorder)
    (ht : target ∈ idsAll b.children) :
    n.substitute target f =
      n.substitute b.id fun b => [b.withChildren (substituteAll target f b.children)] := by
  have ⟨i, k, cs⟩ := n
  rw [ids_mk, List.nodup_cons] at hd
  cases List.mem_cons.mp hb
  case inl e =>
    subst e
    have hne : i ≠ target := fun e => hd.left (e ▸ ht)
    simp [substitute, hne, withChildren]
  case inr hb =>
    have hbi : i ≠ b.id := fun e => hd.left (e ▸ mem_idsAll_iff.mpr ⟨b, hb, rfl⟩)
    have hti : i ≠ target := by
      intro e
      refine hd.left (e ▸ (ids_sublist_of_mem_preorderAll hb).subset ?_)
      simp [ids_eq, ht]
    rw [substitute, if_neg hti, substitute, if_neg hbi, substituteAll_beneath cs hd.right hb ht]

theorem substituteAll_beneath (ns : List Node) (hd : (idsAll ns).Nodup) (hb : b ∈ preorderAll ns)
    (ht : target ∈ idsAll b.children) :
    substituteAll target f ns =
      substituteAll b.id (fun b => [b.withChildren (substituteAll target f b.children)]) ns := by
  match ns with
  | [] => contradiction
  | n :: ns =>
    rw [idsAll_cons, List.nodup_append] at hd
    have htb : target ∈ b.ids := by simp [ids_eq, ht]
    rw [substituteAll, substituteAll]
    cases List.mem_append.mp hb
    case inl hb =>
      have hsub := (preorder_sublist n hb).map id
      have hns {j : NodeId} (hj : j ∈ b.ids) : j ∉ idsAll ns :=
        fun h => hd.right.right _ (hsub.subset hj) _ h rfl
      rw [substitute_beneath n hd.left hb ht, substituteAll_of_not_mem ns (hns htb),
        substituteAll_of_not_mem ns (hns b.id_mem_ids)]
    case inr hb =>
      have hsub := ids_sublist_of_mem_preorderAll hb
      have hn {j : NodeId} (hj : j ∈ b.ids) : j ∉ n.ids :=
        fun h => hd.right.right _ h _ (hsub.subset hj) rfl
      rw [substituteAll_beneath ns hd.right.left hb ht, substitute_of_not_mem n (hn htb),
        substitute_of_not_mem n (hn b.id_mem_ids)]

end

end Beneath

end Node

namespace Location

theorem node_mem_top (l : Location) : l.node ∈ l.top.preorder := by
  have ⟨n, path⟩ := l
  induction path generalizing n with
  | nil => exact n.mem_preorder_self
  | cons f path ih =>
    refine Node.mem_preorder_trans (ih (f.plug n)) ?_
    exact Node.mem_preorder_of_child (by simp [Frame.plug]) n.mem_preorder_self

end Location

namespace Tree

variable {t : Tree} {block : NodeId} {w n : Node}

theorem WellFormed.parent?_of_child (wf : t.WellFormed) (hw : w ∈ Node.preorderAll t.roots)
    (hn : n ∈ w.children) : t.parent? n.id = some w.id := by
  have hnr : n ∈ Node.preorderAll t.roots :=
    (Node.preorderAll_sublist _ hw).subset (Node.mem_preorder_of_child hn n.mem_preorder_self)
  have hm := node?_of_mem wf.nodup hnr
  have ⟨l, hl, hln⟩ := Option.map_eq_some_iff.mp hm
  have ⟨r, hr, hrl⟩ := List.exists_of_findSome?_eq_some hl
  have htop := Node.top_of_locate? hrl
  rw [parent?, hl, Option.bind_some]
  have ⟨m, path⟩ := l
  simp only at hln
  subst hln
  cases path with
  | nil =>
    simp only [Location.top, List.foldl_nil] at htop
    exact absurd (htop ▸ rfl) (Node.id_ne_of_child wf.nodup hr hw hn)
  | cons f path =>
    -- The node above it in its location is another name for its parent.
    have hp : f.plug m ∈ r.preorder := htop ▸ Location.node_mem_top ⟨f.plug m, path⟩
    have hpr : f.plug m ∈ Node.preorderAll t.roots := by
      rw [Node.preorderAll_eq_flatMap]
      exact List.mem_flatMap.mpr ⟨r, hr, hp⟩
    have hmp : m ∈ (f.plug m).children := by simp [Frame.plug]
    have := Node.eq_of_children wf.nodup hpr hw hmp hn rfl
    exact congrArg some (congrArg Node.id this)

end Tree

end RichText
