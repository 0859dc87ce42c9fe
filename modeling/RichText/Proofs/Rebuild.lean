import RichText.Proofs.Canonical
import RichText.Proofs.Parent

namespace RichText

namespace Node

section Substitute

variable {target : NodeId} {f g : Node → Node}

mutual

theorem substitute_substitute (n : Node) (hf : ∀ m, (f m).id = m.id) :
    substituteAll target (fun m => [g m]) (n.substitute target fun m => [f m]) =
      n.substitute target fun m => [g (f m)] := by
  have ⟨i, k, cs⟩ := n
  rw [substitute, substitute]
  split
  case isTrue h =>
    have hi : (f (mk i k cs)).id = target := (hf _).trans h
    rw [substituteAll, ← hi, substitute_of_id]
    rfl
  case isFalse h =>
    rw [substituteAll, substitute, if_neg h, substituteAll_substituteAll cs hf]
    rfl

theorem substituteAll_substituteAll (ns : List Node) (hf : ∀ m, (f m).id = m.id) :
    substituteAll target (fun m => [g m]) (substituteAll target (fun m => [f m]) ns) =
      substituteAll target (fun m => [g (f m)]) ns := by
  match ns with
  | [] => rfl
  | n :: ns => rw [substituteAll, substituteAll_append, substitute_substitute n hf,
      substituteAll_substituteAll ns hf, substituteAll]

end

end Substitute

section Congr

variable {target : NodeId} {f g : Node → List Node}

mutual

theorem substitute_congr (n : Node) (h : ∀ m ∈ n.preorder, m.id = target → f m = g m) :
    n.substitute target f = n.substitute target g := by
  have ⟨i, k, cs⟩ := n
  rw [substitute, substitute]
  split
  case isTrue hi => exact h _ (mem_preorder_self _) hi
  case isFalse => rw [substituteAll_congr cs fun m hm => h m (.tail _ hm)]

theorem substituteAll_congr (ns : List Node)
    (h : ∀ m ∈ preorderAll ns, m.id = target → f m = g m) :
    substituteAll target f ns = substituteAll target g ns := by
  match ns with
  | [] => rfl
  | n :: ns => rw [substituteAll, substituteAll,
      substitute_congr n fun m hm => h m (List.mem_append_left _ hm),
      substituteAll_congr ns fun m hm => h m (List.mem_append_right _ hm)]

end

mutual

theorem substitute_self (n : Node) : n.substitute target (fun m => [m]) = [n] := by
  have ⟨i, k, cs⟩ := n
  rw [substitute, substituteAll_self cs, ite_self]

theorem substituteAll_self (ns : List Node) : substituteAll target (fun m => [m]) ns = ns := by
  match ns with
  | [] => rfl
  | n :: ns => rw [substituteAll, substitute_self n, substituteAll_self ns, List.singleton_append]

end

end Congr

end Node

namespace Tree

variable {t t' t'' : Tree} {block i : NodeId} {b n : Node} {cs cs' : List Node}

theorem WellFormed.substituteAll_eq (wf : t.WellFormed) (hb : t.node? block = some b)
    {f g : Node → List Node} (h : g b = f b) :
    Node.substituteAll block g t.roots = Node.substituteAll block f t.roots := by
  refine Node.substituteAll_congr _ fun m hm hi => ?_
  rw [Node.eq_of_id_eq wf.nodup hm (mem_of_node? hb) (hi.trans (id_of_node? hb).symm), h]

theorem WellFormed.replaceChildren_self (wf : t.WellFormed) (hb : t.node? block = some b) :
    t.replaceChildren block ⟨b.children, []⟩ = t := by
  have hs : Node.substituteAll block (fun n => [n.withChildren b.children]) t.roots = t.roots :=
    (wf.substituteAll_eq hb (f := fun n => [n]) (by simp)).trans (Node.substituteAll_self _)
  have ⟨roots, made⟩ := t
  exact congrArg (Tree.mk · made) ((List.append_nil _).trans hs)

-- A block has other children, and nothing else is different, except that there may be more husks that
-- are detached.
structure Rebuilt (t t' : Tree) (block : NodeId) (cs : List Node) : Prop where
  wf : t'.WellFormed
  roots : ∃ extra, t'.roots =
      Node.substituteAll block (fun b => [b.withChildren cs]) t.roots ++ extra ∧
    (Node.LeavesEmptyAll (t.children block) →
      Node.LeavesEmptyAll cs ∧ ∀ n ∈ extra, n.IsHusk)

namespace Rebuilt

theorem refl (wf : t.WellFormed) (hb : t.node? block = some b) :
    t.Rebuilt t block b.children where
  wf := wf
  roots := by
    refine ⟨[], ?_, fun he => ⟨by rwa [children_of_node? hb] at he, nofun⟩⟩
    rw [List.append_nil, wf.substituteAll_eq hb (f := fun m => [m]) (by simp),
      Node.substituteAll_self]

section

variable (h : t.Rebuilt t' block cs)

include h

theorem node? (hb : t.node? block = some b) : t'.node? block = some (b.withChildren cs) := by
  have ⟨extra, hr, _⟩ := h.roots
  have hm : (t.modify block fun b => b.withChildren cs).node? block = _ :=
    node?_modify fun _ hm => hm
  rw [hb] at hm
  have ⟨roots, made⟩ := t'
  simp only at hr
  subst hr
  exact node?_append hm ..

theorem trans (hb : t.node? block = some b) (h' : t'.Rebuilt t'' block cs') :
    t.Rebuilt t'' block cs' where
  wf := h'.wf
  roots := by
    have ⟨extra, hr, he⟩ := h.roots
    have ⟨extra', hr', he'⟩ := h'.roots
    have hcs := children_of_node? (h.node? hb)
    have hd := h.wf.nodup
    -- The block is in the tree that was rebuilt, so it is not among the detached nodes.
    have hm : (t.modify block fun b => b.withChildren cs).node? block = _ :=
      node?_modify fun _ hm => hm
    rw [hb] at hm
    have hm := mem_of_node? hm
    have hi := id_of_node? hb
    have hx : block ∉ Node.idsAll extra := by
      rw [hr, Node.idsAll_append, List.nodup_append] at hd
      intro hx
      exact hd.right.right _ (Node.mem_idsAll_iff.mpr ⟨_, hm, hi⟩) _ hx rfl
    have hs : Node.substituteAll block (fun b => [b.withChildren cs'])
        (Node.substituteAll block (fun b => [b.withChildren cs]) t.roots) =
          Node.substituteAll block (fun b => [b.withChildren cs']) t.roots :=
      Node.substituteAll_substituteAll (f := (·.withChildren cs)) (g := (·.withChildren cs')) t.roots
        fun _ => rfl
    refine ⟨extra ++ extra', ?_, fun hle => ?_⟩
    case refine_1 => rw [hr', hr, Node.substituteAll_append, Node.substituteAll_of_not_mem extra hx,
        hs, List.append_assoc]
    case refine_2 =>
      have ⟨hl, hk⟩ := he hle
      have ⟨hl', hk'⟩ := he' (by rwa [hcs, Node.children_withChildren])
      exact ⟨hl', fun n hn => (List.mem_append.mp hn).elim (hk n) (hk' n)⟩

theorem mem_roots {r : Node} {as bs : List Node} (wf : t.WellFormed) (hr : r ∈ t.roots)
    (hi : b.id = block) (hc : r.children = as ++ b :: bs) :
    r.withChildren (as ++ b.withChildren cs :: bs) ∈ t'.roots := by
  have ⟨extra, he, _⟩ := h.roots
  have hd := wf.nodup.sublist (Node.ids_sublist_of_mem hr)
  rw [Node.ids_eq, List.nodup_cons, hc] at hd
  have hne : r.id ≠ block := by
    intro e
    exact hd.left (by simp [e, ← hi, Node.id_mem_ids])
  have hs : r.substitute block (fun b => [b.withChildren cs]) =
      [r.withChildren (as ++ b.withChildren cs :: bs)] := by
    rw [Node.substitute_of_ne hne, hc, ← hi, Node.substituteAll_at hd.right]
    simp
  rw [he, Node.substituteAll_eq_flatMap]
  exact List.mem_append_left _ (List.mem_flatMap.mpr ⟨r, hr, by simp [hs]⟩)

end

end Rebuilt

section Steps

variable (wf : t.WellFormed) (hb : t.node? block = some b)

include wf hb

theorem rebuilt_replaceChildren {p : Pass} {next : Nat} (hle : t.made ≤ next)
    (hp : (Node.idsAll p.kept ++ Node.idsAll p.dropped).Perm
      (Node.idsAll b.children ++ NodeId.given t.made next))
    (he : Node.LeavesEmptyAll b.children →
      Node.LeavesEmptyAll p.kept ∧ ∀ n ∈ p.dropped, n.IsHusk) :
    t.Rebuilt { t.replaceChildren block p with made := next } block p.kept where
  wf := wf.replaceChildren hb hle hp
  roots := ⟨p.dropped, rfl, by rwa [children_of_node? hb]⟩

theorem rebuilt_canonicalize :
    t.Rebuilt (t.canonicalize block).2 block (Canonical.canonicalize b.children).kept := by
  have hw := wf.canonicalize hb
  simp only [Tree.canonicalize, children_of_node? hb] at hw ⊢
  split
  case isTrue h =>
    rw [if_pos h] at hw
    refine ⟨hw, _, rfl, fun he => ?_⟩
    rw [children_of_node? hb] at he
    exact ⟨Canonical.leavesEmptyAll_canonicalize he, Canonical.husks_canonicalize he⟩
  case isFalse h =>
    have hd : (Canonical.canonicalize b.children).dropped = [] := by simpa [Pass.isChange] using h
    rw [Canonical.kept_of_canonicalize hd]
    exact .refl wf hb

theorem rebuilt_redraft {f : Draft → Draft}
    (hf : (Draft.mk (t.children block) [] t.made).Grows (f ⟨t.children block, [], t.made⟩)) :
    t.Rebuilt ((t.redraft block f).canonicalize block).2 block
      (Canonical.canonicalize (f ⟨t.children block, [], t.made⟩).content).kept := by
  have hp := hf.perm
  have hr : t.Rebuilt (t.redraft block f) block (f ⟨t.children block, [], t.made⟩).content :=
    rebuilt_replaceChildren wf hb hf.le (by simpa [children_of_node? hb] using hp) fun he => by
      have hk := hf.husks (by rwa [children_of_node? hb])
      exact ⟨hf.leaves (by rwa [children_of_node? hb]), by simpa using hk⟩
  exact hr.trans hb (rebuilt_canonicalize hr.wf (hr.node? hb))

end Steps

end Tree

end RichText
