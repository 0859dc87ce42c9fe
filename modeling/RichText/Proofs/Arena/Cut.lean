import RichText.Arena.Restyle
import RichText.Proofs.Arena.Calls
import RichText.Proofs.Isolate

namespace RichText.Arena

-- Where some siblings stand: without a parent, or among the children of a node.
inductive Place where
  | top (others : List Node)
  | among (p : NodeId) (k : Kind) (is js : List NodeId) (R : Multiset Cell)

namespace Place

def cells (ns : List Node) : Place → Multiset Cell
  | top others => Node.cells (ns ++ others)
  | among p k is js R => family p k is ns js R

variable {s : Place} {w c : Node} {xs ys : List Node}

-- What is stored besides a node and its children does not depend on them.
theorem exists_frame (s : Place) (i : NodeId) (xs ys : List Node) : ∃ R, ∀ w : Node, w.id = i →
    s.cells (xs ++ w :: ys) = family w.id w.kind [] w.children [] R := by
  cases s with
  | top others =>
    refine ⟨Node.cells xs + Node.cells ys + Node.cells others, fun w _ => ?_⟩
    simp [cells, family, Node.cell, ← Multiset.singleton_add]
    abel
  | among p k is js R =>
    refine ⟨⟨p, k, is ++ (xs.map Node.id ++ i :: ys.map Node.id) ++ js⟩ ::ₘ
      (Node.cells xs + Node.cells ys + R), fun w hw => ?_⟩
    simp [cells, family, Node.cell, hw, ← Multiset.singleton_add]
    abel

theorem exists_frame₂ (s : Place) (i j : NodeId) (xs ys : List Node) :
    ∃ R, ∀ w c : Node, w.id = i → c.id = j → s.cells (xs ++ w :: c :: ys) =
      w.cell ::ₘ c.cell ::ₘ (Node.cells w.children + Node.cells c.children + R) := by
  cases s with
  | top others =>
    refine ⟨Node.cells xs + Node.cells ys + Node.cells others, fun w c _ _ => ?_⟩
    simp [cells, ← Multiset.singleton_add]
    abel
  | among p k is js R =>
    refine ⟨⟨p, k, is ++ (xs.map Node.id ++ i :: j :: ys.map Node.id) ++ js⟩ ::ₘ
      (Node.cells xs + Node.cells ys + R), fun w c hw hc => ?_⟩
    simp [cells, family, hw, hc, ← Multiset.singleton_add]
    abel

end Place

variable {a : Arena} {N : Nat} {s : Place} {w n : Node} {xs ys left right : List Node}

namespace Stores

theorem parent?_root {ns : List Node} (h : a.Stores N (Node.cells ns)) (hw : w ∈ ns) :
    a.parent? w.id = none := by
  have h : a.Holds ⟨ns, N⟩ := .of_stores h
  have hl : Tree.locate? ⟨ns, N⟩ w.id = some ⟨w, []⟩ := h.wf.locate?_of_top (l := ⟨w, []⟩) hw
  rw [h.parent?_eq, Tree.parent?, hl]
  rfl

section Create

variable {others : List Node} {p : NodeId} {kp : Kind} {is js : List NodeId} {R : Multiset Cell}

theorem parent?_root_create (h : a.Stores N ((Place.top others).cells (xs ++ w :: ys))) (k : Kind) :
    (a.create k).2.parent? w.id = none :=
  parent?_root (w := w) ((h.create k).of_eq (q := Node.cells (.mk ⟨N⟩ k [] :: (xs ++ w :: ys ++ others)))
    (by simp [Place.cells, Node.cell])) (by simp)

theorem create_among (h : a.Stores N ((Place.among p kp is js R).cells (xs ++ w :: ys))) (k : Kind) :
    (a.create k).2.Stores (N + 1)
      (⟨p, kp, (is ++ xs.map Node.id) ++ w.id :: (ys.map Node.id ++ js)⟩ ::ₘ
        (⟨⟨N⟩, k, []⟩ ::ₘ (Node.cells (xs ++ w :: ys) + R))) :=
  (h.create k).of_eq (by
    simp [Place.cells, family, ← Multiset.singleton_add]
    abel)

end Create

theorem create_after (h : a.Stores N (s.cells (xs ++ w :: ys))) (k : Kind) :
    ((a.create k).2.insertAfter w.id ⟨N⟩).Stores (N + 1)
      (s.cells (xs ++ w :: .mk ⟨N⟩ k [] :: ys)) := by
  have hf := h.parent?_fresh k
  cases s with
  | top others =>
    rw [Arena.insertAfter, detach_eq_self hf, parent?_root_create h k]
    exact (h.create k).of_eq (by simp [Place.cells, Node.cell, ← Multiset.singleton_add]; abel)
  | among p kp is js R =>
    refine ((create_among h k).insertAfter (Nat.lt_succ_self N) hf).of_eq ?_
    simp [Place.cells, family, Node.cell, ← Multiset.singleton_add]
    abel

theorem create_before (h : a.Stores N (s.cells (xs ++ w :: ys))) (k : Kind) :
    ((a.create k).2.insertBefore w.id ⟨N⟩).Stores (N + 1)
      (s.cells (xs ++ .mk ⟨N⟩ k [] :: w :: ys)) := by
  have hf := h.parent?_fresh k
  cases s with
  | top others =>
    rw [Arena.insertBefore, detach_eq_self hf, parent?_root_create h k]
    exact (h.create k).of_eq (by simp [Place.cells, Node.cell, ← Multiset.singleton_add]; abel)
  | among p kp is js R =>
    refine ((create_among h k).insertBefore (Nat.lt_succ_self N) hf).of_eq ?_
    simp [Place.cells, family, Node.cell, ← Multiset.singleton_add]
    abel

theorem parent?_sibling {p : NodeId} {k : Kind} {is js : List NodeId} {R : Multiset Cell}
    (h : a.Stores N ((Place.among p k is js R).cells (xs ++ w :: ys))) :
    a.parent? w.id = some p :=
  h.paired.parent?_eq
    (h.children_head.trans (show _ = (is ++ xs.map Node.id) ++ w.id :: (ys.map Node.id ++ js) by simp))

section Beside

variable {p : NodeId} {k : Kind} {R : Multiset Cell}
  (h : a.Stores N ((Place.among p k [] [] R).cells (xs ++ w :: ys)))

include h

theorem children_among : a.children p = xs.map Node.id ++ w.id :: ys.map Node.id :=
  h.children_head.trans (by simp)

theorem next?_sibling : a.next? w.id = ys.head?.map Node.id := by
  rw [h.paired.next?_eq h.children_among, List.head?_map]

theorem prev?_sibling : a.prev? w.id = xs.getLast?.map Node.id := by
  rw [h.paired.prev?_eq h.children_among, List.getLast?_map]

theorem index?_sibling : a.index? w.id = some xs.length := by
  simpa using h.paired.index?_eq h.children_among

end Beside

section Sibling

variable (h : a.Stores N (s.cells (xs ++ w :: ys)))

include h

theorem kind?_sibling : a.kind? w.id = some w.kind := by
  obtain ⟨R, hR⟩ := s.exists_frame w.id xs ys
  exact (h.of_eq (hR w rfl)).kind?_head

theorem children_sibling : a.children w.id = w.children.map Node.id := by
  obtain ⟨R, hR⟩ := s.exists_frame w.id xs ys
  simpa using (h.of_eq (hR w rfl)).children_head

section Child

variable (hw : w.children = left ++ n :: right)

include hw

theorem children_within : a.children w.id = left.map Node.id ++ n.id :: right.map Node.id := by
  rw [h.children_sibling, hw, List.map_append, List.map_cons]

theorem kind?_within : a.kind? n.id = some n.kind := by
  obtain ⟨R, hR⟩ := s.exists_frame w.id xs ys
  exact h.kind?_node (by simp [hR w rfl, family, hw])

theorem parent?_within : a.parent? n.id = some w.id :=
  h.paired.parent?_eq (h.children_within hw)

theorem next?_within : a.next? n.id = right.head?.map Node.id := by
  rw [h.paired.next?_eq (h.children_within hw), List.head?_map]

theorem prev?_within : a.prev? n.id = left.getLast?.map Node.id := by
  rw [h.paired.prev?_eq (h.children_within hw), List.getLast?_map]

theorem isNone_next?_within : (a.next? n.id).isNone = right.isEmpty := by
  rw [h.next?_within hw]
  cases right <;> rfl

theorem isNone_prev?_within : (a.prev? n.id).isNone = left.isEmpty := by
  rw [h.prev?_within hw]
  cases left <;> simp

end Child

theorem splitText_within {text : String} (hw : w.children = left ++ n :: right)
    (hk : n.kind = .text text) (offset : Nat) :
    (a.splitText n.id offset).1 = ⟨N⟩ ∧ (a.splitText n.id offset).2.Stores (N + 1)
      (s.cells (xs ++ w.withChildren (left ++ n.takeText offset :: n.dropText offset ⟨N⟩ :: right) ::
        ys)) := by
  obtain ⟨R, hR⟩ := s.exists_frame w.id xs ys
  have hf := h.of_eq (q := family w.id w.kind (left.map Node.id) (n :: right) []
    (Node.cells left + R)) (by
      simp [hR w rfl, hw, family, ← Multiset.singleton_add]
      abel)
  obtain ⟨hi, hs⟩ := hf.splitText_family hk offset
  refine ⟨hi, hs.of_eq ?_⟩
  rw [hR (w.withChildren _) rfl]
  simp [family, ← Multiset.singleton_add]
  abel

theorem cutFrom (hw : w.children = left ++ n :: right) :
    ∃ a', a.cutFrom w.id n.id = some (⟨N⟩, a') ∧ a'.Stores (N + 1)
      (s.cells (xs ++ w.withChildren left :: w.copyAround ⟨N⟩ (n :: right) :: ys)) := by
  obtain ⟨R, hR⟩ := s.exists_frame₂ w.id ⟨N⟩ xs ys
  have hc := h.create_after (.wrapper (w.kind.styles?.getD ∅))
  have hm := hc.of_eq (q := ⟨w.id, w.kind, left.map Node.id ++ (n :: right).map Node.id⟩ ::ₘ
    ⟨⟨N⟩, .wrapper (w.kind.styles?.getD ∅), []⟩ ::ₘ (Node.cells (left ++ n :: right) + R)) (by
      rw [hR w _ rfl rfl]
      simp [hw, Node.cell])
  obtain ⟨a', hr, hs⟩ := hm.moveRun
  refine ⟨a', ?_, hs.of_eq ?_⟩
  case refine_1 =>
    rw [List.map_cons, List.head?_cons] at hr
    simp only [Arena.cutFrom, copyWrapper, styles?_eq h.kind?_sibling, fst_create, h.size, hr,
      Option.map_some]
  case refine_2 =>
    rw [hR (w.withChildren _) (w.copyAround _ _) rfl rfl]
    simp [Node.cell, Node.copyAround]

theorem cutText {text : String} (hw : w.children = left ++ n :: right) (hk : n.kind = .text text)
    (offset : Nat) : ∃ a', (a.splitText n.id offset).2.cutFrom w.id (a.splitText n.id offset).1 =
      some (⟨N + 1⟩, a') ∧ a'.Stores (N + 2) (s.cells (xs ++
        w.withChildren (left ++ [n.takeText offset]) ::
          w.copyAround ⟨N + 1⟩ (n.dropText offset ⟨N⟩ :: right) :: ys)) := by
  obtain ⟨hi, hs⟩ := h.splitText_within hw hk offset
  have hw' : left ++ n.takeText offset :: n.dropText offset ⟨N⟩ :: right =
      (left ++ [n.takeText offset]) ++ n.dropText offset ⟨N⟩ :: right := by simp
  obtain ⟨a', hc, hs⟩ := hs.cutFrom hw'
  rw [hi]
  exact ⟨a', hc, hs⟩

theorem copyAround (hw : w.children = left ++ [n]) :
    (((a.copyWrapper w.id).2.insertAfter w.id ⟨N⟩).append ⟨N⟩ n.id).Stores (N + 1)
      (s.cells (xs ++ w.withChildren left :: w.copyAround ⟨N⟩ [n] :: ys)) := by
  obtain ⟨R, hR⟩ := s.exists_frame₂ w.id ⟨N⟩ xs ys
  have hc := h.create_after (.wrapper (w.kind.styles?.getD ∅))
  have hm := hc.of_eq (q := ⟨w.id, w.kind, left.map Node.id ++ n.id :: []⟩ ::ₘ
    ⟨⟨N⟩, .wrapper (w.kind.styles?.getD ∅), []⟩ ::ₘ (Node.cells (left ++ [n]) + R)) (by
      rw [hR w _ rfl rfl]
      simp [hw, Node.cell])
  rw [copyWrapper, styles?_eq h.kind?_sibling]
  refine hm.moveTo.of_eq ?_
  rw [hR (w.withChildren _) (w.copyAround _ _) rfl rfl]
  simp [Node.cell, Node.copyAround]

end Sibling

end Stores

end RichText.Arena
