import RichText.Proofs.Arena.Family
import RichText.Restyle.Draft

namespace RichText

def Tree.arena (t : Tree) : Arena where
  slots := (List.range t.made).map fun i =>
    ⟨(t.kind? ⟨i⟩).getD (.element ""), t.parent? ⟨i⟩, t.childIds ⟨i⟩⟩

namespace Arena

variable {a a' : Arena} {t t' : Tree} {i p : NodeId} {b : Node}

-- That what is stored is a tree.
structure Holds (a : Arena) (t : Tree) : Prop where
  wf : t.WellFormed
  stores : a.Stores t.made (Node.cells t.roots)

-- What is stored as a tree is a well-formed one, as every slot is stored once.
theorem Holds.of_stores (h : a.Stores t.made (Node.cells t.roots)) : a.Holds t := by
  refine ⟨Tree.wellFormed_iff.mpr ?_, h⟩
  have hi := map_id_cells a
  rw [h.cells, Node.map_id_cells, h.size] at hi
  simpa [NodeId.given, List.range_eq_range'] using Multiset.coe_eq_coe.mp hi

theorem mem_cells_iff (wf : t.WellFormed) (x : Cell) :
    x ∈ Node.cells t.roots ↔ t.kind? x.id = some x.kind ∧ t.childIds x.id = x.children := by
  rw [Node.mem_cells]
  constructor
  case mp =>
    rintro ⟨n, hn, rfl⟩
    have hn := Tree.node?_of_mem wf.nodup hn
    exact ⟨by simp [Tree.kind?, Node.cell, hn], Tree.childIds_of_node? hn⟩
  case mpr =>
    rintro ⟨hk, hc⟩
    obtain ⟨n, hn, hk⟩ := Option.map_eq_some_iff.mp hk
    rw [Tree.childIds_of_node? hn] at hc
    refine ⟨n, Tree.mem_of_node? hn, ?_⟩
    rw [Node.cell, Tree.id_of_node? hn, hk, hc]

theorem Holds.of_eq (wf : t.WellFormed) (hp : a.Paired) (hs : a.size = t.made)
    (hk : ∀ i, a.kind? i = t.kind? i) (hc : ∀ i, a.children i = t.childIds i) : a.Holds t where
  wf := wf
  stores := by
    have hd : (Node.cells t.roots).Nodup := by
      refine .of_map Cell.id ?_
      rw [Node.map_id_cells]
      exact Multiset.coe_nodup.mpr wf.nodup
    refine ⟨hp, hs, (Multiset.Nodup.ext (.of_map _ (nodup_map_id_cells a)) hd).mpr fun x => ?_⟩
    rw [mem_cells, mem_cells_iff wf, hk, hc]

section Image

variable (wf : t.WellFormed)

include wf

theorem slot?_arena (i : NodeId) : t.arena.slot? i =
    (t.kind? i).map fun k => ⟨k, t.parent? i, t.childIds i⟩ := by
  have hi := wf.isSome_node?_iff i
  rw [slot?, Tree.arena, List.getElem?_map]
  cases hn : t.node? i with
  | none =>
    have hle : t.made ≤ i.index := Nat.not_lt.mp (mt hi.mpr (by simp [hn]))
    rw [List.getElem?_eq_none (by simpa using hle), Tree.kind?, hn]
    rfl
  | some n =>
    have hlt : i.index < t.made := hi.mp (by simp [hn])
    have hk : t.kind? i = some n.kind := by rw [Tree.kind?, hn, Option.map_some]
    rw [List.getElem?_range hlt, Option.map_some, hk]
    rfl

theorem kind?_arena (i : NodeId) : t.arena.kind? i = t.kind? i := by
  simp [kind?, slot?_arena wf, Function.comp_def]

theorem parent?_arena (i : NodeId) : t.arena.parent? i = t.parent? i := by
  rw [parent?, slot?_arena wf]
  cases hk : t.kind? i with
  | some k => rfl
  | none =>
    cases hl : t.locate? i with
    | none => rw [Tree.parent?, hl]; rfl
    | some l => simp [Tree.kind?, Tree.node?, hl] at hk

theorem children_arena (i : NodeId) : t.arena.children i = t.childIds i := by
  rw [children, slot?_arena wf]
  cases hk : t.kind? i with
  | some k => rfl
  | none =>
    cases hn : t.node? i with
    | none => simp [Tree.childIds, Tree.children, hn]
    | some n => simp [Tree.kind?, hn] at hk

theorem holds_arena : t.arena.Holds t := by
  refine .of_eq wf ⟨fun c p => ?_, fun p => ?_⟩ ?_ (kind?_arena wf) (children_arena wf)
  · rw [parent?_arena wf, children_arena wf, wf.parent?_iff]
  · rw [children_arena wf]
    exact wf.linked.once p
  · rw [size, Tree.arena, List.length_map, List.length_range]

end Image

def siblingsAfter (a : Arena) (i : NodeId) : List NodeId :=
  ((a.parent? i).map fun p => ((a.children p).dropWhile (· ≠ i)).tail).getD []

namespace Holds

variable (h : a.Holds t)

include h

theorem size_eq : a.size = t.made :=
  h.stores.size

theorem kind?_eq (i : NodeId) : a.kind? i = t.kind? i := by
  cases Nat.lt_or_ge i.index t.made with
  | inl hlt =>
    obtain ⟨x, hx, rfl⟩ := h.stores.exists_mem hlt
    rw [h.stores.kind?_eq hx, ((mem_cells_iff h.wf x).mp hx).left]
  | inr hle =>
    have hn : t.node? i = none :=
      Option.not_isSome_iff_eq_none.mp (mt (h.wf.isSome_node?_iff i).mp (Nat.not_lt.mpr hle))
    have hk : a.kind? i = none :=
      Option.not_isSome_iff_eq_none.mp (mt kind?_isSome_iff.mp (Nat.not_lt.mpr (h.size_eq ▸ hle)))
    rw [hk, Tree.kind?, hn, Option.map_none]

theorem children_eq (i : NodeId) : a.children i = t.childIds i := by
  cases Nat.lt_or_ge i.index t.made with
  | inl hlt =>
    obtain ⟨x, hx, rfl⟩ := h.stores.exists_mem hlt
    rw [h.stores.children_eq hx, ((mem_cells_iff h.wf x).mp hx).right]
  | inr hle => rw [h.wf.childIds_of_le hle, children_of_le (h.size_eq ▸ hle)]

theorem parent?_eq (i : NodeId) : a.parent? i = t.parent? i :=
  Option.ext fun p => by rw [h.stores.paired.parent_iff, h.wf.parent?_iff, h.children_eq]

section Place

variable {n : Node} {path : List Frame} (ht : (Location.mk n path).top ∈ t.roots)

include ht

theorem node?_at : t.node? n.id = some n :=
  Tree.node_of_locate? (h.wf.locate?_of_top ht)

theorem kind?_at : a.kind? n.id = some n.kind := by
  rw [h.kind?_eq, Tree.kind?, h.node?_at ht, Option.map_some]

theorem children_at : a.children n.id = n.children.map Node.id := by
  rw [h.children_eq, Tree.childIds_of_node? (h.node?_at ht)]

theorem parent?_at : a.parent? n.id = path.head?.map Frame.id := by
  rw [h.parent?_eq, Tree.parent?, h.wf.locate?_of_top ht]
  rfl

end Place

section Frame

variable {n : Node} {f : Frame} {path : List Frame} (ht : (Location.mk n (f :: path)).top ∈ t.roots)

include ht

theorem siblings_at : a.children f.id =
    f.before.reverse.map Node.id ++ n.id :: f.after.map Node.id := by
  have ht : (Location.mk (f.plug n) path).top ∈ t.roots := ht
  have hc := h.children_at ht
  simpa [Frame.plug] using hc

theorem index?_at : a.index? n.id = some f.before.length := by
  simpa using h.stores.paired.index?_eq (h.siblings_at ht)

theorem next?_at : a.next? n.id = f.after.head?.map Node.id := by
  simpa using h.stores.paired.next?_eq (h.siblings_at ht)

theorem prev?_at : a.prev? n.id = f.before.head?.map Node.id := by
  simpa using h.stores.paired.prev?_eq (h.siblings_at ht)

theorem siblingsAfter_at : a.siblingsAfter n.id = f.after.map Node.id := by
  have hs := h.siblings_at ht
  have hn : n.id ∉ f.before.reverse.map Node.id := by
    have hd := h.stores.paired.once f.id
    rw [hs, List.nodup_append] at hd
    exact fun hm => hd.right.right _ hm _ (.head _) rfl
  rw [siblingsAfter, h.parent?_at ht, List.head?_cons, Option.map_some, Option.map_some,
    Option.getD_some, hs, List.dropWhile_append_of_pos, List.dropWhile_cons_of_neg (by simp),
    List.tail_cons]
  exact fun j hj => decide_eq_true fun e => hn (e ▸ hj)

end Frame

end Holds

-- That the children of a node, and what was taken out from among them, are stored as in a draft.
def Draws (a : Arena) (p : NodeId) (k : Kind) (R : Multiset Cell) (d : Draft) : Prop :=
  a.Stores d.next (family p k [] d.content [] (Node.cells d.dropped + R))

theorem Holds.draws (h : a.Holds t) (hb : t.node? p = some b) :
    ∃ R, a.Draws p b.kind R ⟨b.children, [], t.made⟩ ∧ ∀ (a' : Arena) (d : Draft),
      a'.Draws p b.kind R d →
        a'.Holds { t.replaceChildren p ⟨d.content, d.dropped⟩ with made := d.next } := by
  have hi := Tree.id_of_node? hb
  have hm := Tree.mem_of_node? hb
  have hle : Node.cells [b] ≤ Node.cells t.roots := by
    have hs := (Node.preorderAll_sublist _ hm).map Node.cell
    simpa [Node.cells, Node.preorderAll] using hs.subperm
  obtain ⟨R, hR⟩ := Multiset.le_iff_exists_add.mp hle
  refine ⟨R, ?_, fun a' d hd => .of_stores (hd.of_eq ?_)⟩
  case refine_1 => exact h.stores.of_eq (by simp [hR, family, Node.cell, hi])
  case refine_2 =>
    have hs := Node.cells_substituteAll (g := fun n => n.withChildren d.content) (fun _ => rfl)
      t.roots h.wf.nodup hm
    rw [hR, hi, add_left_comm, add_comm _ (Node.cells [b]), add_left_cancel_iff] at hs
    simp only [Tree.replaceChildren, Tree.modifyChildren, Tree.modify, Tree.substitute,
      Node.cells_append, hs]
    simp [family, Node.cell, hi, ← Multiset.singleton_add]
    abel

end Arena

end RichText
