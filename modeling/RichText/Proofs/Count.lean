import RichText.Offset
import RichText.Proofs.Seat

namespace RichText

namespace Kind

def isLeaf (k : Kind) : Bool :=
  k.isText || k.isBreak

theorem width_of_not_isLeaf {k : Kind} (h : k.isLeaf = false) : k.width = 0 := by
  cases k <;> simp_all [isLeaf, isText, isBreak, width]

end Kind

namespace Node

theorem not_isText_of_not_isLeaf {n : Node} (h : n.kind.isLeaf = false) : n.isText = false :=
  (Bool.or_eq_false_iff.mp h).left

theorem flow_of_not_isLeaf {n : Node} (h : n.kind.isLeaf = false) :
    n.flow = n :: flowAll n.children := by
  have ⟨i, k, cs⟩ := n
  have h : (k.isText || k.isBreak) = false := h
  simp [flow, h]

theorem flow_of_isLeaf {n : Node} (h : n.kind.isLeaf) : n.flow = [n] := by
  have ⟨i, k, cs⟩ := n
  have h : k.isText || k.isBreak := h
  simp only [flow, h]
  rfl

@[simp]
theorem flowAll_append (ns ms : List Node) : flowAll (ns ++ ms) = flowAll ns ++ flowAll ms := by
  simp [flowAll_eq_flatMap]

mutual

theorem flow_sublist (n : Node) : n.flow.Sublist n.preorder := by
  have ⟨i, k, cs⟩ := n
  rw [flow, preorder]
  split
  case isTrue => simp
  case isFalse => exact (flowAll_sublist cs).cons_cons _

theorem flowAll_sublist (ns : List Node) : (flowAll ns).Sublist (preorderAll ns) := by
  match ns with
  | [] => exact .slnil
  | n :: ns => exact (flow_sublist n).append (flowAll_sublist ns)

end

theorem takeWhile_flowAll_append {ns l : List Node} (h : stop ∉ idsAll ns) :
    (flowAll ns ++ l).takeWhile (·.id ≠ stop) = flowAll ns ++ l.takeWhile (·.id ≠ stop) := by
  apply List.takeWhile_append_of_pos
  intro m hm
  have := (flowAll_sublist ns).subset hm
  exact decide_eq_true fun e => h (mem_idsAll_iff.mpr ⟨m, this, e⟩)

theorem takeWhile_flow_self (n : Node) (l : List Node) :
    (n.flow ++ l).takeWhile (·.id ≠ n.id) = [] := by
  obtain ⟨i, k, cs⟩ := n
  simp [flow]

theorem countBefore_eq_sum (n : Node) (stop : NodeId) :
    n.countBefore stop = ((n.flow.takeWhile (·.id ≠ stop)).map (·.kind.width)).sum := by
  simp [countBefore, linesBefore, Lines.measure_ofKinds, Function.comp_def]

theorem charCount_of_isLeaf {n : Node} (h : n.kind.isLeaf) : n.charCount = n.kind.width := by
  simp [charCount_eq_sum, flow_of_isLeaf h]

theorem charCount_of_isText {n : Node} (h : n.isText) : n.charCount = n.kind.textLength := by
  have ⟨i, k, cs⟩ := n
  cases k <;> simp_all [isText, Kind.isText]
  simp [charCount_eq_sum, flow, Kind.isText, Kind.width, Kind.textLength, Kind.text?]

theorem sum_width_flowAll (ns : List Node) :
    ((flowAll ns).map (·.kind.width)).sum = (glyphsAmong ∅ ns).length :=
  (length_glyphsAmong_eq_sum ns).symm

theorem countBefore_of_plug {b n : Node} {s : Seat} (hd : b.ids.Nodup) (hk : b.kind.isLeaf = false)
    (hc : b.children = s.plug [n]) : b.countBefore n.id = Piece.total s.lead := by
  rw [ids_eq, List.nodup_cons, hc] at hd
  have hn : n ∈ preorderAll (s.plug [n]) := Seat.mem_preorderAll_plug (.head _)
  have hb : b.id ≠ n.id := fun e => hd.left (e ▸ mem_idsAll_iff.mpr ⟨n, hn, rfl⟩)
  rw [countBefore_eq_sum, flow_of_not_isLeaf hk, hc, List.takeWhile_cons_of_pos (by simpa using hb),
    List.map_cons, List.sum_cons, Kind.width_of_not_isLeaf hk, Nat.zero_add]
  have hd := hd.right
  cases s with
  | bare before after =>
    simp only [Seat.plug_bare, idsAll_append, idsAll_cons, List.nodup_append] at hd
    have hb : n.id ∉ idsAll before := fun h => hd.left.right.right _ h _ (by simp [id_mem_ids]) rfl
    simp only [Seat.plug_bare, List.append_assoc, flowAll_append, List.singleton_append, flowAll]
    rw [takeWhile_flowAll_append hb, takeWhile_flow_self, List.append_nil, sum_width_flowAll,
      Seat.lead_bare, Piece.total, flatMap_pieces_glyphs]
  | held before id styles left right after =>
    simp only [Seat.plug_held, idsAll_append, idsAll_cons, List.nodup_append, ids_mk,
      List.nodup_cons, List.mem_append] at hd
    have hw : n.id ∈ n.ids := n.id_mem_ids
    have hb : n.id ∉ idsAll before := fun h => hd.right.right _ h _ (.inl (by simp [hw])) rfl
    have hi : id ≠ n.id := fun e => hd.right.left.left.left (by simp [e, hw])
    have hl : n.id ∉ idsAll left := fun h =>
      hd.right.left.left.right.left.right.right _ h _ (by simp [hw]) rfl
    simp only [Seat.plug_held, flowAll_append, flowAll]
    rw [takeWhile_flowAll_append hb, flow_of_not_isLeaf rfl, List.cons_append,
      List.takeWhile_cons_of_pos (by simpa using hi)]
    simp only [children_mk, List.append_assoc, flowAll_append, List.singleton_append, flowAll]
    rw [takeWhile_flowAll_append hl, takeWhile_flow_self, List.append_nil, List.map_append,
      List.sum_append, sum_width_flowAll, List.map_cons, List.sum_cons,
      Kind.width_of_not_isLeaf rfl, sum_width_flowAll, Seat.lead_held, Piece.total, List.flatMap_append,
      flatMap_pieces_glyphs, flatMap_items_glyphs, List.length_append]
    simp [length_glyphsAmong_eq_sum]

end Node

namespace Tree

variable {t : Tree} {block i : NodeId} {b n : Node}

theorem charCount_of_node? (h : t.node? i = some n) : t.charCount i = n.charCount := by
  simp [charCount, lines, h, Node.charCount]

theorem countBefore_of_node? (h : t.node? block = some b) :
    t.countBefore block i = b.countBefore i := by
  simp [countBefore, linesBefore, h, Node.countBefore]

theorem WellFormed.offsetOf_of_mem (wf : t.WellFormed) (hb : t.node? block = some b)
    (hn : n ∈ b.preorder) : t.offsetOf block ⟨n.id, k⟩ = b.offsetOf n k := by
  simp [offsetOf, hb, wf.node?_of_mem_preorder hb hn]

end Tree

end RichText
