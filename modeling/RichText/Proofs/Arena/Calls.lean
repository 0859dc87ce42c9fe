import RichText.Proofs.Arena.Holds
import RichText.Proofs.Beside
import RichText.Proofs.Rebuild

namespace RichText

namespace Tree

variable {t : Tree} {p : NodeId} {w n : Node} {f : Node → List Node} {as bs : List Node}

theorem WellFormed.substituteAll_child (wf : t.WellFormed) (hw : t.node? p = some w)
    (hc : w.children = as ++ n :: bs) :
    Node.substituteAll n.id f t.roots =
      Node.substituteAll p (fun m => [m.withChildren (as ++ f n ++ bs)]) t.roots := by
  have hi := id_of_node? hw
  have hd := wf.nodup_ids hw
  rw [Node.ids_eq, List.nodup_cons, hc] at hd
  have hn : n.id ∈ Node.idsAll w.children := Node.id_mem_idsAll (by simp [hc])
  rw [Node.substituteAll_beneath t.roots wf.nodup (mem_of_node? hw) hn, hi]
  refine wf.substituteAll_eq hw ?_
  rw [hc, Node.substituteAll_at hd.right]

theorem exists_site (hn : t.node? i = some n) :
    (t.parent? i = none ∧ t.locate? i = some ⟨n, []⟩ ∧ ∃ as bs, t.roots = as ++ n :: bs) ∨
    ∃ f path, t.locate? i = some ⟨n, f :: path⟩ ∧ (Location.mk n (f :: path)).top ∈ t.roots := by
  obtain ⟨⟨m, path⟩, hl, rfl⟩ := exists_locate? hn
  have ht := top_of_locate? hl
  cases path with
  | nil => exact .inl ⟨by simp [parent?, hl, Location.parent?], hl, List.append_of_mem ht⟩
  | cons f path => exact .inr ⟨f, path, hl, ht⟩

end Tree

namespace Arena

variable {a a' : Arena} {t : Tree} {c i p r : NodeId}

namespace Holds

theorem empty : Arena.empty.Holds Tree.empty :=
  ⟨⟨.nil, by simp [Tree.empty]⟩, .empty⟩

variable (h : a.Holds t)

include h

theorem lt_iff : i.index < a.size ↔ i.index < t.made := by
  rw [h.size_eq]

theorem create (k : Kind) :
    (a.create k).1 = (t.create k).1 ∧ (a.create k).2.Holds (t.create k).2 := by
  refine ⟨congrArg NodeId.mk h.size_eq, .of_stores ((h.stores.create k).of_eq ?_)⟩
  simp [Tree.create, Node.cell, ← Multiset.singleton_add]
  abel

theorem detach (c : NodeId) : (a.detach c).Holds (t.detach c) := by
  have hm := h.wf.moved_detach c
  refine .of_eq hm.wf (h.stores.paired.detach c) ?_ (fun i => ?_) fun q => ?_
  · rw [size_detach, h.size_eq, hm.made]
  · rw [kind?_detach, h.kind?_eq, hm.kind]
  · rw [h.stores.paired.children_detach, h.children_eq, h.wf.childIds_detach]

theorem insert (hc : c.index < t.made) (hp : p.index < t.made) (hu : t.contains c p = false)
    (index : Nat) : (a.insert p index c).Holds (t.insert p index c) := by
  have wf' := (h.wf.conserves_insert p index c).wf h.wf
  have hc' := h.lt_iff.mpr hc
  have hp' := h.lt_iff.mpr hp
  refine .of_eq wf' (h.stores.paired.insert hp' hc' index) ?_ (fun i => ?_) fun q => ?_
  · rw [size_insert, h.size_eq, Tree.made_insert]
  · rw [kind?_insert, h.kind?_eq, h.wf.kind?_of_perm wf'
      (h.wf.map_insert_perm (fun _ _ => rfl) p index c)]
  · cases Nat.lt_or_ge q.index t.made with
    | inl hq =>
      rw [h.stores.paired.children_insert hp', h.children_eq, h.wf.childIds_insert hc hp hu hq]
      simp only [eq_comm]
    | inr hq =>
      rw [wf'.childIds_of_le (Tree.made_insert t p index c ▸ hq),
        children_of_le (by rwa [size_insert, h.size_eq])]

theorem append (hc : c.index < t.made) (hp : p.index < t.made) (hu : t.contains c p = false) :
    (a.append p c).Holds (t.append p c) := by
  have hl : (a.children p).length = (t.children p).length := by
    rw [h.children_eq, Tree.childIds, List.length_map]
  rw [Arena.append, Tree.append, hl]
  exact h.insert hc hp hu _

-- A node that a node is to come beside has its parent still when that node was taken out, and the
-- parent does not lie beneath it.
theorem not_contains_of_beside (hu : t.contains c r → r = c)
    (hp : (t.detach c).parent? r = some p) :
    p.index < t.made ∧ (t.detach c).contains c p = false := by
  have hd := h.wf.moved_detach c
  have hne : r ≠ c := fun e => by simp [e, hd.parent] at hp
  have hp : t.parent? r = some p := (hd.parents r hne).symm.trans hp
  have hpl := h.wf.linked.parent_lt r p hp
  have hu : t.contains c r = false := Bool.eq_false_iff.mpr fun hr => hne (hu hr)
  rw [h.wf.contains_of_parent? hp, Bool.or_eq_false_iff] at hu
  refine ⟨hpl, ?_⟩
  rw [Tree.contains, h.wf.lineage_of_parents hd.wf hd.kind hd.parents hpl hu.right]
  exact hu.right

section Beside

variable (hc : c.index < t.made) (hr : r.index < t.made) (hu : t.contains c r → r = c)

include hc hr hu

theorem beside : (∃ n, (t.detach c).locate? r = some ⟨n, []⟩ ∧ (a.detach c).parent? r = none) ∨
    ∃ n f path, (t.detach c).locate? r = some ⟨n, f :: path⟩ ∧ (a.detach c).parent? r = some f.id ∧
      (a.detach c).index? r = some f.before.length ∧
      ∀ index, ((a.detach c).insert f.id index c).Holds ((t.detach c).insert f.id index c) := by
  have hm := Tree.made_detach t c
  have hd := h.detach c
  obtain ⟨n, hn⟩ := hd.wf.exists_node? (hm ▸ hr)
  obtain rfl := Tree.id_of_node? hn
  obtain ⟨hp, hl, -⟩ | ⟨f, path, hl, ht⟩ := Tree.exists_site hn
  case inl => exact .inl ⟨n, hl, hd.parent?_eq n.id ▸ hp⟩
  case inr =>
    have hp : (a.detach c).parent? n.id = some f.id := hd.parent?_at ht
    obtain ⟨hf, hcf⟩ := h.not_contains_of_beside hu (hd.parent?_eq n.id ▸ hp)
    exact .inr ⟨n, f, path, hl, hp, hd.index?_at ht, hd.insert (hm.symm ▸ hc) (hm.symm ▸ hf) hcf⟩

theorem insertBefore : (a.insertBefore r c).Holds (t.insertBefore r c) := by
  rw [Arena.insertBefore, Tree.insertBefore]
  obtain ⟨n, hl, hp⟩ | ⟨n, f, path, hl, hp, hi, hins⟩ := h.beside hc hr hu
  case inl => simpa [hp, hl] using h.detach c
  case inr => simpa [hp, hi, hl] using hins f.before.length

theorem insertAfter : (a.insertAfter r c).Holds (t.insertAfter r c) := by
  rw [Arena.insertAfter, Tree.insertAfter]
  obtain ⟨n, hl, hp⟩ | ⟨n, f, path, hl, hp, hi, hins⟩ := h.beside hc hr hu
  case inl => simpa [hp, hl] using h.detach c
  case inr => simpa [hp, hi, hl] using hins (f.before.length + 1)

end Beside

theorem draws_child {n : Node} {f : Frame} {path : List Frame} (hl : t.locate? i = some ⟨n, f :: path⟩)
    (ht : (Location.mk n (f :: path)).top ∈ t.roots) :
    ∃ R, a.Stores t.made
        (family f.id f.kind (f.before.reverse.map Node.id) [n] (f.after.map Node.id) R) ∧
      ∀ (a' : Arena) (g : Node → List Node) (out : List Node) (made : Nat),
        a'.Stores made (family f.id f.kind (f.before.reverse.map Node.id) (g n)
          (f.after.map Node.id) (Node.cells out + R)) →
        a'.Holds ⟨Node.substituteAll i g t.roots ++ out, made⟩ := by
  have hw : t.node? f.id = some (f.plug n) :=
    Tree.node_of_locate? (h.wf.locate?_of_top (l := ⟨f.plug n, path⟩) ht)
  have hc : (f.plug n).children = f.before.reverse ++ n :: f.after := rfl
  have hi : n.id = i := Tree.id_of_locate? hl
  obtain ⟨R, hd, hr⟩ := h.draws hw
  have hk : (f.plug n).kind = f.kind := rfl
  rw [hk, hc] at hd
  rw [hk] at hr
  refine ⟨Node.cells f.before.reverse + Node.cells f.after + R, hd.of_eq ?_, fun a' g out made h' => ?_⟩
  case refine_1 =>
    simp [family, ← Multiset.singleton_add]
    abel
  case refine_2 =>
    have h' := hr a' ⟨f.before.reverse ++ g n ++ f.after, out, made⟩ (h'.of_eq (by
      simp [family, ← Multiset.singleton_add]
      abel))
    rw [← hi, h.wf.substituteAll_child hw hc]
    exact h'

theorem stores_root {n : Node} {as bs : List Node} (hr : t.roots = as ++ n :: bs) :
    a.Stores t.made (n.cell ::ₘ (Node.cells n.children + (Node.cells as + Node.cells bs))) ∧
      ∀ (a' : Arena) (g : Node → List Node) (made : Nat),
        a'.Stores made (Node.cells (g n) + (Node.cells as + Node.cells bs)) →
        a'.Holds ⟨Node.substituteAll n.id g t.roots, made⟩ := by
  refine ⟨h.stores.of_eq ?_, fun a' g made h' => .of_stores (h'.of_eq ?_)⟩
  case refine_1 =>
    simp [hr, ← Multiset.singleton_add]
    abel
  case refine_2 =>
    rw [hr, Node.substituteAll_at (hr ▸ h.wf.nodup)]
    simp
    abel

theorem splitText (hi : i.index < t.made) (offset : Nat) :
    (a.splitText i offset).1 = (t.splitText i offset).1 ∧
      (a.splitText i offset).2.Holds (t.splitText i offset).2 := by
  obtain ⟨n, hn⟩ := h.wf.exists_node? hi
  obtain rfl := Tree.id_of_node? hn
  have hk : a.kind? n.id = some n.kind := by simp [h.kind?_eq, Tree.kind?, hn]
  rw [Tree.splitText, hn]
  simp only
  cases hs : n.kind with
  | text s =>
    rw [if_pos (by simp [Node.isText, hs, Kind.isText])]
    obtain ⟨hp, hl, as, bs, hr⟩ | ⟨f, path, hl, ht⟩ := Tree.exists_site hn
    case inl =>
      obtain ⟨hd, hr⟩ := h.stores_root hr
      have hm := hd.mapText fun s => String.ofList (s.toList.take offset)
      have hc := hm.create (.text (String.ofList (s.toList.drop offset)))
      have hf := hm.parent?_fresh (.text (String.ofList (s.toList.drop offset)))
      have hp : (((a.mapText n.id fun s => String.ofList (s.toList.take offset)).create
          (.text (String.ofList (s.toList.drop offset)))).2).parent? n.id = none := by
        rw [parent?_create, mapText, parent?_mapKind, h.parent?_eq, hp]
      have ht : a.text? n.id = some s := by rw [text?_eq hk, hs]; rfl
      rw [Arena.splitText, ht]
      simp only [fst_create, hm.size]
      rw [Arena.insertAfter, Stores.detach_eq_self hf, hp]
      refine ⟨trivial, hr _ (fun n => [n.takeText offset, n.dropText offset ⟨t.made⟩]) _ (hc.of_eq ?_)⟩
      simp [Node.cell, Node.takeText, Node.dropText, Node.text, hs, Kind.mapText, Kind.text?,
        ← Multiset.singleton_add]
      abel
    case inr =>
      obtain ⟨R, hd, hr⟩ := h.draws_child hl ht
      obtain ⟨hi, hd⟩ := hd.splitText_family hs offset
      refine ⟨hi, ?_⟩
      have := hr _ (fun n => [n.takeText offset, n.dropText offset ⟨t.made⟩]) [] _ (hd.of_eq (by simp))
      simpa [Tree.substitute] using this
  | _ =>
    rw [if_neg (by simp [Node.isText, hs, Kind.isText])]
    simpa [Arena.splitText, text?_eq hk, hs, Kind.text?] using h

theorem unwrap (hi : i.index < t.made) : (a.unwrap i).Holds (t.unwrap i) := by
  obtain ⟨n, hn⟩ := h.wf.exists_node? hi
  obtain rfl := Tree.id_of_node? hn
  rw [Tree.unwrap]
  obtain ⟨hp, hl, -⟩ | ⟨f, path, hl, ht⟩ := Tree.exists_site hn
  case inl => simpa [Arena.unwrap, h.parent?_eq, hp, hl] using h
  case inr =>
    obtain ⟨R, hd, hr⟩ := h.draws_child hl ht
    rw [hl]
    exact hr _ Node.children [n.withChildren []] _ (hd.unwrap_family.of_eq (by simp))

section MoveRun

variable {target : NodeId} (ht : target.index < t.made)

include ht

-- All siblings from one on are moved, if they are not moved to where they are, nor beneath themselves.
theorem moveRun_of_childIds {as is : List NodeId} (hp : p.index < t.made) (hne : p ≠ target)
    (hs : t.childIds p = as ++ is) (hc : ∀ i ∈ is, t.contains i target = false) :
    ∃ a', a.moveRun target is.head? = some a' ∧
      a'.Holds (is.foldl (fun t i => t.append target i) t) := by
  induction is generalizing a t with
  | nil =>
    rw [List.head?_nil, Arena.moveRun]
    exact ⟨a, rfl, h⟩
  | cons i is ih =>
    rw [List.forall_mem_cons] at hc
    have hi : i.index < t.made := h.wf.linked.child_lt p i (by simp [hs])
    have hm := Tree.made_insert t target (t.children target).length i
    have hn : a.next? i = is.head? :=
      h.stores.paired.next?_eq ((h.children_eq p).trans hs)
    rw [List.head?_cons, Arena.moveRun, hn]
    refine ih (h.append hi ht hc.left) (hm.symm ▸ ht) (hm.symm ▸ hp) ?children ?outside
    case children =>
      have hf := filter_ne_of_nodup (hs ▸ h.wf.linked.once p)
      dsimp only
      rw [Tree.append, h.wf.childIds_insert hi ht hc.left hp, if_neg hne, hs, hf]
    case outside =>
      intro j hj
      dsimp only
      rw [Tree.append, h.wf.contains_insert hi ht hc.left ht hc.left]
      exact hc.right j hj

theorem moveRun {first : NodeId} (hf : first.index < t.made) (hne : t.parent? first ≠ some target)
    (hc : ∀ i ∈ first :: a.siblingsAfter first, t.contains i target = false) :
    ∃ a', a.moveRun target (some first) = some a' ∧ a'.Holds (t.moveRun first target) := by
  obtain ⟨n, hn⟩ := h.wf.exists_node? hf
  obtain rfl := Tree.id_of_node? hn
  obtain ⟨hp, hl, -⟩ | ⟨f, path, hl, hr⟩ := Tree.exists_site hn
  case inl =>
    have hn : a.next? n.id = none := by simp [next?, h.parent?_eq, hp]
    rw [Arena.moveRun, hn, Arena.moveRun, Tree.moveRun, hl]
    exact ⟨_, rfl, h.append hf ht (hc n.id (.head _))⟩
  case inr =>
    have hp : t.parent? n.id = some f.id := by simp [Tree.parent?, hl, Location.parent?]
    have hs := (h.children_eq f.id).symm.trans (h.siblings_at hr)
    rw [Tree.moveRun, hl]
    refine h.moveRun_of_childIds ht (h.wf.linked.parent_lt _ _ hp) (fun e => hne (e ▸ hp)) hs ?_
    simpa [h.siblingsAfter_at hr] using hc

end MoveRun

end Holds

end Arena

end RichText
