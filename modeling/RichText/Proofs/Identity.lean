import Mathlib
import RichText.Tree.Edit

namespace RichText

namespace NodeId

-- The ids given out while the number of nodes goes from one value to another.
def given (a b : Nat) : List NodeId :=
  (List.range' a (b - a)).map mk

@[simp]
theorem given_self (a : Nat) : given a a = [] := by
  simp [given]

@[simp]
theorem given_one (a : Nat) : given a (a + 1) = [⟨a⟩] := by
  simp [given]

@[simp]
theorem given_two (a : Nat) : given a (a + 2) = [⟨a⟩, ⟨a + 1⟩] := by
  simp [given, List.range'_succ]

theorem given_append (h : a ≤ b) (h' : b ≤ c) : given a b ++ given b c = given a c := by
  have hc : c - a = b - a + (c - b) := by omega
  have hb : b = a + 1 * (b - a) := by omega
  rw [given, given, given, ← List.map_append, hc, ← List.range'_append]
  congr 3

theorem perm_given_trans {is js ks : List NodeId} (h : a ≤ b) (h' : b ≤ c)
    (hp : js.Perm (is ++ given a b)) (hp' : ks.Perm (js ++ given b c)) :
    ks.Perm (is ++ given a c) := by
  rw [← given_append h h', ← List.append_assoc]
  exact hp'.trans (hp.append_right _)

@[simp]
theorem mem_given {i : NodeId} : i ∈ given a b ↔ a ≤ i.index ∧ i.index < b := by
  simp only [given, List.mem_map, List.mem_range'_1]
  constructor
  · rintro ⟨j, hj, rfl⟩
    simp only
    omega
  · exact fun h => ⟨i.index, by omega, rfl⟩

theorem nodup_given : (given a b).Nodup :=
  List.Nodup.map (fun _ _ h => by injection h) List.nodup_range'

end NodeId

namespace Node

@[simp]
theorem id_withKind : (withKind n k).id = n.id :=
  rfl

@[simp]
theorem kind_withKind : (withKind n k).kind = k :=
  rfl

@[simp]
theorem children_withKind : (withKind n k).children = n.children :=
  rfl

@[simp]
theorem id_withChildren : (withChildren n cs).id = n.id :=
  rfl

@[simp]
theorem kind_withChildren : (withChildren n cs).kind = n.kind :=
  rfl

@[simp]
theorem children_withChildren : (withChildren n cs).children = cs :=
  rfl

@[simp]
theorem withChildren_children (n : Node) : n.withChildren n.children = n :=
  n.eta

@[simp]
theorem preorderAll_append (ns ms : List Node) :
    preorderAll (ns ++ ms) = preorderAll ns ++ preorderAll ms := by
  simp [preorderAll_eq_flatMap]

theorem preorder_eq (n : Node) : n.preorder = n :: preorderAll n.children := by
  have ⟨i, k, cs⟩ := n
  rfl

@[simp]
theorem idsAll_nil : idsAll [] = [] :=
  rfl

@[simp]
theorem idsAll_cons : idsAll (n :: ns) = n.ids ++ idsAll ns := by
  simp [idsAll, ids, preorderAll]

@[simp]
theorem idsAll_append (ns ms : List Node) : idsAll (ns ++ ms) = idsAll ns ++ idsAll ms := by
  simp [idsAll]

theorem ids_eq (n : Node) : n.ids = n.id :: idsAll n.children := by
  simp [ids, idsAll, preorder_eq]

@[simp]
theorem ids_mk : (mk i k cs).ids = i :: idsAll cs :=
  ids_eq _

@[simp]
theorem ids_withKind : (withKind n k).ids = n.ids := by
  simp [ids_eq]

@[simp]
theorem ids_withChildren : (withChildren n cs).ids = n.id :: idsAll cs := by
  simp [ids_eq]

theorem id_mem_ids (n : Node) : n.id ∈ n.ids := by
  simp [ids_eq]

theorem mem_ids_iff {n : Node} : i ∈ n.ids ↔ ∃ m ∈ n.preorder, m.id = i := by
  simp [ids]

theorem mem_idsAll_iff {ns : List Node} : i ∈ idsAll ns ↔ ∃ m ∈ preorderAll ns, m.id = i := by
  simp [idsAll]

theorem mem_preorderAll_of_mem {ns : List Node} (h : n ∈ ns) : n ∈ preorderAll ns := by
  rw [preorderAll_eq_flatMap]
  exact List.mem_flatMap.mpr ⟨n, h, n.mem_preorder_self⟩

theorem id_mem_idsAll {ns : List Node} (h : n ∈ ns) : n.id ∈ idsAll ns :=
  mem_idsAll_iff.mpr ⟨n, mem_preorderAll_of_mem h, rfl⟩

theorem ids_sublist_of_mem {ns : List Node} (h : n ∈ ns) : n.ids.Sublist (idsAll ns) := by
  obtain ⟨as, bs, rfl⟩ := List.append_of_mem h
  simp

mutual

theorem preorder_sublist (n : Node) (h : m ∈ n.preorder) : m.preorder.Sublist n.preorder := by
  have ⟨i, k, cs⟩ := n
  cases List.mem_cons.mp h
  case inl h => exact h ▸ .refl _
  case inr h => exact (preorderAll_sublist cs h).cons _

theorem preorderAll_sublist (ns : List Node) (h : m ∈ preorderAll ns) :
    m.preorder.Sublist (preorderAll ns) := by
  match ns with
  | [] => simp [preorderAll] at h
  | n :: ns =>
    cases List.mem_append.mp h
    case inl h => exact (preorder_sublist n h).trans (List.sublist_append_left ..)
    case inr h => exact (preorderAll_sublist ns h).trans (List.sublist_append_right ..)

end

theorem ids_sublist_of_mem_preorderAll {ns : List Node} (h : m ∈ preorderAll ns) :
    m.ids.Sublist (idsAll ns) :=
  (preorderAll_sublist ns h).map id

theorem mem_preorder_trans {n m l : Node} (h : m ∈ n.preorder) (hl : l ∈ m.preorder) :
    l ∈ n.preorder :=
  (preorder_sublist n h).subset hl

theorem nodup_ids_of_mem {n m : Node} (hd : n.ids.Nodup) (h : m ∈ n.preorder) : m.ids.Nodup :=
  hd.sublist ((preorder_sublist n h).map id)

section Substitute

variable {f : Node → List Node}

mutual

theorem substitute_of_not_mem (n : Node) (h : target ∉ n.ids) : n.substitute target f = [n] := by
  have ⟨i, k, cs⟩ := n
  simp only [ids_mk, List.mem_cons, not_or] at h
  rw [substitute, if_neg (Ne.symm h.left), substituteAll_of_not_mem cs h.right]

theorem substituteAll_of_not_mem (ns : List Node) (h : target ∉ idsAll ns) :
    substituteAll target f ns = ns := by
  match ns with
  | [] => rfl
  | n :: ns =>
    simp only [idsAll_cons, List.mem_append, not_or] at h
    rw [substituteAll, substitute_of_not_mem n h.left, substituteAll_of_not_mem ns h.right]
    rfl

end

theorem substitute_of_id (n : Node) : n.substitute n.id f = f n := by
  have ⟨i, k, cs⟩ := n
  simp [substitute]

theorem substitute_of_ne {n : Node} (h : n.id ≠ target) :
    n.substitute target f = [n.withChildren (substituteAll target f n.children)] := by
  have ⟨i, k, cs⟩ := n
  rw [id_mk] at h
  rw [substitute, if_neg h]
  rfl

@[simp]
theorem substituteAll_append (ns ms : List Node) :
    substituteAll target f (ns ++ ms) = substituteAll target f ns ++ substituteAll target f ms := by
  simp [substituteAll_eq_flatMap]

theorem substituteAll_at {as bs : List Node} (h : (idsAll (as ++ n :: bs)).Nodup) :
    substituteAll n.id f (as ++ n :: bs) = as ++ f n ++ bs := by
  simp only [idsAll_append, idsAll_cons, List.nodup_append, List.mem_append] at h
  have ha : n.id ∉ idsAll as := fun hm => h.right.right _ hm _ (.inl n.id_mem_ids) rfl
  have hb : n.id ∉ idsAll bs := fun hm => h.right.left.right.right _ n.id_mem_ids _ hm rfl
  simp [substituteAll, substituteAll_of_not_mem _ ha, substituteAll_of_not_mem _ hb,
    substitute_of_id]

theorem substituteAll_in {as bs xs ys : List Node} {w : Node}
    (h : (idsAll (as ++ w :: bs)).Nodup) (hw : w.children = xs ++ n :: ys) :
    substituteAll n.id f (as ++ w :: bs) =
      as ++ w.withChildren (xs ++ f n ++ ys) :: bs := by
  have hn : n.id ∈ idsAll w.children := by simp [hw, id_mem_ids]
  simp only [idsAll_append, idsAll_cons, List.nodup_append, List.mem_append] at h
  have hwn : w.ids.Nodup := h.right.left.left
  have hm : n.id ∈ w.ids := by simp [ids_eq, hn]
  have ha : n.id ∉ idsAll as := fun hm' => h.right.right _ hm' _ (.inl hm) rfl
  have hb : n.id ∉ idsAll bs := fun hm' => h.right.left.right.right _ hm _ hm' rfl
  rw [ids_eq, List.nodup_cons] at hwn
  have hne : w.id ≠ n.id := fun e => hwn.left (e ▸ hn)
  rw [substituteAll_append, substituteAll_of_not_mem _ ha, substituteAll, substitute_of_ne hne, hw,
    substituteAll_at (hw ▸ hwn.right), substituteAll_of_not_mem _ hb]
  simp

end Substitute

section Find

mutual

theorem locateFrom_node (n : Node) :
    (n.locateFrom target path).map Location.node = n.preorder.find? (·.id = target) := by
  have ⟨i, k, cs⟩ := n
  rw [locateFrom, preorder, List.find?_cons]
  split
  case isTrue h => simp [h]
  case isFalse h => simp [h, locateAmong_node cs]

theorem locateAmong_node (ns : List Node) :
    (locateAmong target path i k before ns).map Location.node =
      (preorderAll ns).find? (·.id = target) := by
  match ns with
  | [] => rfl
  | n :: ns =>
    have hn : (n.locateFrom target (⟨i, k, before, ns⟩ :: path)).map Location.node = _ :=
      locateFrom_node n
    rw [locateAmong, preorderAll, List.find?_append, ← hn]
    split
    case h_1 h => simp [h]
    case h_2 h => simp [h, locateAmong_node ns]

end

theorem find?_id_of_mem {ns : List Node} (h : (ns.map id).Nodup) (hm : m ∈ ns) :
    ns.find? (·.id = m.id) = some m := by
  induction ns with
  | nil => contradiction
  | cons n ns ih =>
    rw [List.map_cons, List.nodup_cons] at h
    cases List.mem_cons.mp hm
    case inl e => simp [e]
    case inr hm =>
      have hne : n.id ≠ m.id := fun e => h.left (e ▸ List.mem_map_of_mem hm)
      simpa [hne] using ih h.right hm

theorem eq_of_id_eq {ns : List Node} (h : (idsAll ns).Nodup) (hn : n ∈ preorderAll ns)
    (hm : m ∈ preorderAll ns) (e : n.id = m.id) : n = m :=
  Option.some.inj <| (find?_id_of_mem h hn).symm.trans (e ▸ find?_id_of_mem h hm)

end Find

section Modify

variable {f : Node → Node}

mutual

theorem find?_substitute (n : Node) (hf : ∀ m, m.id = target → (f m).id = target) :
    (preorderAll (n.substitute target fun m => [f m])).find? (·.id = target) =
      (n.preorder.find? (·.id = target)).map f := by
  have ⟨i, k, cs⟩ := n
  rw [substitute, preorder, List.find?_cons]
  split
  case isTrue h => simp [h, preorderAll, preorder_eq, hf (mk target k cs) rfl]
  case isFalse h => simp [h, preorderAll, preorder, find?_substituteAll cs hf]

theorem find?_substituteAll (ns : List Node) (hf : ∀ m, m.id = target → (f m).id = target) :
    (preorderAll (substituteAll target (fun m => [f m]) ns)).find? (·.id = target) =
      ((preorderAll ns).find? (·.id = target)).map f := by
  match ns with
  | [] => rfl
  | n :: ns =>
    rw [substituteAll, preorderAll_append, preorderAll, List.find?_append, List.find?_append,
      find?_substitute n hf, find?_substituteAll ns hf]
    cases n.preorder.find? (·.id = target) <;> simp

end

end Modify

section Replace

variable {f : Node → List Node} {motive : List Node → List Node → Prop}

mutual

theorem substitute_induction (self : motive [n] (f n))
    (within : ∀ m, n ∈ preorderAll m.children → m.id ≠ n.id →
      motive m.children (substituteAll n.id f m.children) →
      motive [m] [m.withChildren (substituteAll n.id f m.children)])
    (among : ∀ as ms ns bs, n.id ∉ idsAll as → n.id ∉ idsAll bs → motive ms ns →
      motive (as ++ ms ++ bs) (as ++ ns ++ bs))
    (m : Node) (hd : m.ids.Nodup) (hn : n ∈ m.preorder) : motive [m] (m.substitute n.id f) := by
  have ⟨i, k, cs⟩ := m
  rw [ids_mk, List.nodup_cons] at hd
  cases List.mem_cons.mp hn
  case inl e =>
    subst e
    simpa [substitute] using self
  case inr hn =>
    have hne : i ≠ n.id := fun e => hd.left (e ▸ mem_idsAll_iff.mpr ⟨n, hn, rfl⟩)
    rw [substitute, if_neg hne]
    exact within (mk i k cs) hn hne (substituteAll_induction self within among cs hd.right hn)

-- What holds of a node and of what comes in its place, holds of the nodes around them and so up to the
-- whole tree if it is kept from the children of a node to the node, and from nodes to those nodes
-- among others.
theorem substituteAll_induction (self : motive [n] (f n))
    (within : ∀ m, n ∈ preorderAll m.children → m.id ≠ n.id →
      motive m.children (substituteAll n.id f m.children) →
      motive [m] [m.withChildren (substituteAll n.id f m.children)])
    (among : ∀ as ms ns bs, n.id ∉ idsAll as → n.id ∉ idsAll bs → motive ms ns →
      motive (as ++ ms ++ bs) (as ++ ns ++ bs))
    (ms : List Node) (hd : (idsAll ms).Nodup) (hn : n ∈ preorderAll ms) :
    motive ms (substituteAll n.id f ms) := by
  match ms with
  | [] => contradiction
  | m :: ms =>
    rw [idsAll_cons, List.nodup_append] at hd
    rw [substituteAll]
    cases List.mem_append.mp hn
    case inl hn =>
      have hm : n.id ∈ m.ids := mem_ids_iff.mpr ⟨n, hn, rfl⟩
      have hms : n.id ∉ idsAll ms := fun h => hd.right.right _ hm _ h rfl
      have h := substitute_induction self within among m hd.left hn
      rw [substituteAll_of_not_mem ms hms]
      exact among [] [m] (m.substitute n.id f) ms (by simp) hms h
    case inr hn =>
      have hms : n.id ∈ idsAll ms := mem_idsAll_iff.mpr ⟨n, hn, rfl⟩
      have hm : n.id ∉ m.ids := fun h => hd.right.right _ h _ hms rfl
      have h := substituteAll_induction self within among ms hd.right.left hn
      rw [substitute_of_not_mem m hm]
      simpa using among [m] ms (substituteAll n.id f ms) [] (by simpa using hm) (by simp) h

end

theorem perm_amid (as bs : List β) {ms ns out fresh : List β}
    (h : (ns ++ out).Perm (ms ++ fresh)) :
    (as ++ ns ++ bs ++ out).Perm (as ++ ms ++ bs ++ fresh) := by
  classical
  refine List.perm_iff_count.mpr fun b => ?_
  have hb := h.count_eq b
  simp only [List.count_append] at hb ⊢
  omega

-- Putting nodes in place of one of a tree changes what the nodes of the tree are, their children left
-- aside, as it changes what those of the node are.
theorem map_substituteAll_perm {g : Node → β} {out fresh : List β}
    (hg : ∀ n cs, g (n.withChildren cs) = g n) (ms : List Node)
    (hd : (idsAll ms).Nodup) (hn : n ∈ preorderAll ms)
    (hp : ((preorderAll (f n)).map g ++ out).Perm (n.preorder.map g ++ fresh)) :
    ((preorderAll (substituteAll n.id f ms)).map g ++ out).Perm
      ((preorderAll ms).map g ++ fresh) := by
  refine substituteAll_induction (motive := fun ms ns =>
    ((preorderAll ns).map g ++ out).Perm ((preorderAll ms).map g ++ fresh)) ?self ?within ?among
    ms hd hn
  case self => simpa [preorderAll] using hp
  case within =>
    intro m hn hne h
    simpa [preorderAll, preorder_eq, hg] using h
  case among =>
    intro as ms ns bs ha hb h
    simpa using perm_amid ((preorderAll as).map g) ((preorderAll bs).map g) h

theorem idsAll_substituteAll_perm {out fresh : List NodeId} (ms : List Node)
    (hd : (idsAll ms).Nodup) (hn : n ∈ preorderAll ms)
    (hp : (idsAll (f n) ++ out).Perm (n.ids ++ fresh)) :
    (idsAll (substituteAll n.id f ms) ++ out).Perm (idsAll ms ++ fresh) :=
  map_substituteAll_perm (fun _ _ => rfl) ms hd hn hp

end Replace

end Node

namespace Tree

variable {t : Tree} {id : NodeId}

theorem node?_eq_find? (id : NodeId) :
    t.node? id = (Node.preorderAll t.roots).find? (·.id = id) := by
  have ⟨roots, made⟩ := t
  unfold node? locate?
  simp only
  induction roots with
  | nil => rfl
  | cons n ns ih =>
    rw [List.findSome?_cons, Node.preorderAll, List.find?_append, ← n.locateFrom_node, ← ih]
    change _ = ((n.locate? id).map Location.node).or _
    cases n.locate? id <;> rfl

theorem mem_of_node? (h : t.node? id = some n) : n ∈ Node.preorderAll t.roots :=
  List.mem_of_find?_eq_some (node?_eq_find? id ▸ h)

theorem id_of_node? (h : t.node? id = some n) : n.id = id := by
  rw [node?_eq_find?] at h
  have hp := List.find?_some h
  simpa using hp

theorem node?_of_mem (h : (Node.idsAll t.roots).Nodup) (hm : n ∈ Node.preorderAll t.roots) :
    t.node? n.id = some n := by
  rw [node?_eq_find?, Node.find?_id_of_mem h hm]

theorem WellFormed.node?_of_mem_preorder (wf : t.WellFormed) (h : t.node? id = some n)
    (hm : m ∈ n.preorder) : t.node? m.id = some m :=
  node?_of_mem wf.nodup <| (Node.preorderAll_sublist _ (mem_of_node? h)).subset hm

theorem wellFormed_iff : t.WellFormed ↔ (Node.idsAll t.roots).Perm (NodeId.given 0 t.made) := by
  constructor
  · exact fun wf => (List.perm_ext_iff_of_nodup wf.nodup NodeId.nodup_given).mpr fun i => by
      simp [wf.mem_iff]
  · exact fun h => ⟨h.nodup_iff.mpr NodeId.nodup_given, fun i => by simp [h.mem_iff]⟩

instance (t : Tree) : Decidable t.WellFormed :=
  decidable_of_iff _ wellFormed_iff.symm

theorem WellFormed.nodup_ids (wf : t.WellFormed) (h : t.node? id = some n) : n.ids.Nodup :=
  wf.nodup.sublist (Node.ids_sublist_of_mem_preorderAll (mem_of_node? h))

theorem WellFormed.index_lt (wf : t.WellFormed) (h : t.node? id = some n) (hi : i ∈ n.ids) :
    i.index < t.made :=
  (wf.mem_iff i).mp <| (Node.ids_sublist_of_mem_preorderAll (mem_of_node? h)).subset hi

theorem children_of_node? (h : t.node? id = some n) : t.children id = n.children := by
  simp [children, h]

theorem node?_modify {f : Node → Node} (hf : ∀ m, m.id = id → (f m).id = id) :
    (t.modify id f).node? id = (t.node? id).map f := by
  simp only [node?_eq_find?]
  exact Node.find?_substituteAll t.roots hf

end Tree

end RichText
