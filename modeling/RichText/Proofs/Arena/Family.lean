import RichText.Proofs.Arena.Stored
import RichText.Proofs.Links
import RichText.Proofs.Parent

namespace RichText

namespace Node

variable {n : Node} {ms ns : List Node}

def cell (n : Node) : Cell :=
  ⟨n.id, n.kind, n.children.map id⟩

def cells (ns : List Node) : Multiset Cell :=
  ↑((preorderAll ns).map cell)

@[simp]
theorem cells_nil : cells [] = 0 :=
  rfl

@[simp]
theorem cells_cons (n : Node) (ns : List Node) :
    cells (n :: ns) = n.cell ::ₘ (cells n.children + cells ns) := by
  simp [cells, preorderAll, preorder_eq]

@[simp]
theorem cells_append (ms ns : List Node) : cells (ms ++ ns) = cells ms + cells ns := by
  simp [cells]

@[simp]
theorem cells_reverse (ns : List Node) : cells ns.reverse = cells ns := by
  induction ns with
  | nil => rfl
  | cons n ns ih =>
    rw [List.reverse_cons, cells_append, ih, cells_cons, cells_cons, cells_nil, add_zero, add_comm]
    simp

theorem mem_cells {x : Cell} : x ∈ cells ns ↔ ∃ n ∈ preorderAll ns, n.cell = x := by
  simp [cells]

theorem map_id_cells (ns : List Node) : (cells ns).map Cell.id = ↑(idsAll ns) := by
  rw [cells, Multiset.map_coe, List.map_map, idsAll]
  rfl

theorem cells_substituteAll {g : Node → Node} (hg : ∀ m, (g m).id = m.id) (ms : List Node)
    (hd : (idsAll ms).Nodup) (hn : n ∈ preorderAll ms) :
    cells (substituteAll n.id (fun n => [g n]) ms) + cells [n] = cells [g n] + cells ms := by
  refine substituteAll_induction (motive := fun ms ns => cells ns + cells [n] = cells [g n] + cells ms)
    rfl ?within ?among ms hd hn
  case within =>
    intro m _ _ h
    have hc : (m.withChildren (substituteAll n.id (fun n => [g n]) m.children)).cell = m.cell := by
      simp [cell, map_id_modify hg]
    rw [cells_cons, cells_cons m, hc, children_withChildren, cells_nil, add_zero, add_zero,
      Multiset.cons_add, h, Multiset.add_cons]
  case among =>
    intro as ms ns bs _ _ h
    simp only [cells_append]
    calc cells as + cells ns + cells bs + cells [n]
      _ = cells as + (cells ns + cells [n]) + cells bs := by abel
      _ = cells [g n] + (cells as + cells ms + cells bs) := by rw [h]; abel

end Node

namespace Arena

variable {a : Arena} {p : NodeId} {k : Kind} {n : Nat} {R : Multiset Cell} {is js : List NodeId}
  {ns : List Node} {m : Node}

theorem Stores.kind?_node {m : Multiset Cell} (h : a.Stores n m) {x : Node}
    (hx : x.cell ∈ m) : a.kind? x.id = some x.kind :=
  h.kind?_eq hx

theorem Stores.children_node {m : Multiset Cell} (h : a.Stores n m) {x : Node}
    (hx : x.cell ∈ m) : a.children x.id = x.children.map Node.id :=
  h.children_eq hx

-- How a node with some children is stored, of which the ones in the middle are given with what is
-- beneath them.
def family (p : NodeId) (k : Kind) (is : List NodeId) (ns : List Node) (js : List NodeId)
    (R : Multiset Cell) : Multiset Cell :=
  ⟨p, k, is ++ ns.map Node.id ++ js⟩ ::ₘ (Node.cells ns + R)

section Family

variable (h : a.Stores n (family p k is (m :: ns) js R))

include h

theorem Stores.kind?_family : a.kind? m.id = some m.kind :=
  h.kind?_node (by simp [family])

theorem Stores.child?_family : a.child? p is.length = some m.id := by
  simp [child?, h.children_head]

theorem Stores.next_family :
    a.Stores n (family p k (is ++ [m.id]) ns js (Node.cells [m] + R)) :=
  h.of_eq (by simp [family, ← Multiset.singleton_add]; abel)

theorem Stores.detach_family :
    (a.detach m.id).Stores n (family p k is ns js (Node.cells [m] + R)) := by
  have h := h.of_eq (q := ⟨p, k, is ++ m.id :: (ns.map Node.id ++ js)⟩ ::ₘ
    (Node.cells (m :: ns) + R)) (by simp [family])
  exact h.detach.of_eq (by simp [family, ← Multiset.singleton_add]; abel)

theorem Stores.mapKind_family (f : Kind → Kind) :
    (a.mapKind m.id f).Stores n (family p k is (m.withKind (f m.kind) :: ns) js R) := by
  have h := h.of_eq (q := m.cell ::ₘ ⟨p, k, is ++ m.id :: (ns.map Node.id ++ js)⟩ ::ₘ
    (Node.cells m.children + Node.cells ns + R))
    (by simp [family, ← Multiset.singleton_add]; abel)
  exact (h.mapKind f).of_eq (by simp [family, Node.cell, ← Multiset.singleton_add]; abel)

theorem Stores.children_family : a.children m.id = m.children.map Node.id :=
  h.children_node (by simp [family])

theorem Stores.unwrap_family : (a.unwrap m.id).Stores n
    (family p k is (m.children ++ ns) js (Node.cells [m.withChildren []] + R)) := by
  have h := h.of_eq (q := ⟨p, k, is ++ m.id :: (ns.map Node.id ++ js)⟩ ::ₘ m.cell ::ₘ
    (Node.cells m.children + Node.cells ns + R)) (by simp [family, ← Multiset.singleton_add]; abel)
  exact h.unwrap.of_eq (by simp [family, Node.cell, ← Multiset.singleton_add]; abel)

theorem Stores.splitText_family {s : String} (hk : m.kind = .text s) (offset : Nat) :
    (a.splitText m.id offset).1 = ⟨n⟩ ∧ (a.splitText m.id offset).2.Stores (n + 1)
      (family p k is (m.takeText offset :: m.dropText offset ⟨n⟩ :: ns) js R) := by
  have h := h.of_eq (q := ⟨p, k, is ++ m.id :: (ns.map Node.id ++ js)⟩ ::ₘ
    ⟨m.id, .text s, m.children.map Node.id⟩ ::ₘ (Node.cells m.children + Node.cells ns + R))
    (by simp [family, Node.cell, hk, ← Multiset.singleton_add]; abel)
  obtain ⟨hi, h⟩ := h.splitText offset
  refine ⟨hi, h.of_eq ?_⟩
  simp [family, Node.cell, Node.takeText, Node.dropText, Node.text, hk, Kind.mapText, Kind.text?,
    ← Multiset.singleton_add]
  abel

end Family

end Arena

end RichText
