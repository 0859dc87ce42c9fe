import RichText.Restyle.Apply
import RichText.Proofs.Leaves

namespace RichText

namespace Draft

-- No node is there twice, and new nodes get new ids.
structure Sound (d : Draft) : Prop where
  nodup : (Node.idsAll (d.content ++ d.dropped)).Nodup
  lt : ∀ i ∈ Node.idsAll (d.content ++ d.dropped), i.index < d.next

-- No node is lost, none but new nodes come in, texts and breaks stay without children, and only husks
-- are taken out.
structure Grows (d d' : Draft) : Prop where
  le : d.next ≤ d'.next
  perm : (Node.idsAll (d'.content ++ d'.dropped)).Perm
    (Node.idsAll (d.content ++ d.dropped) ++ NodeId.given d.next d'.next)
  leaves : Node.LeavesEmptyAll d.content → Node.LeavesEmptyAll d'.content
  husks : Node.LeavesEmptyAll d.content → ∀ n ∈ d'.dropped, n ∈ d.dropped ∨ n.IsHusk

namespace Grows

variable {d d' d'' : Draft}

theorem refl (d : Draft) : d.Grows d where
  le := Nat.le_refl _
  perm := by simp
  leaves := id
  husks _ _ := .inl

theorem trans (h : d.Grows d') (h' : d'.Grows d'') : d.Grows d'' where
  le := Nat.le_trans h.le h'.le
  perm := NodeId.perm_given_trans h.le h'.le h.perm h'.perm
  leaves := h'.leaves ∘ h.leaves
  husks he n hn := (h'.husks (h.leaves he) n hn).elim (h.husks he n) .inr

theorem of_count (hle : d.next ≤ d'.next)
    (he : Node.LeavesEmptyAll d.content → Node.LeavesEmptyAll d'.content)
    (hk : Node.LeavesEmptyAll d.content → ∀ n ∈ d'.dropped, n ∈ d.dropped ∨ n.IsHusk)
    (h : ∀ i, (Node.idsAll d'.content).count i + (Node.idsAll d'.dropped).count i =
      (Node.idsAll d.content).count i + (Node.idsAll d.dropped).count i +
        (NodeId.given d.next d'.next).count i) : d.Grows d' where
  le := hle
  perm := List.perm_iff_count.mpr fun i => by
    simp only [Node.idsAll_append, List.count_append]
    exact h i
  leaves := he
  husks := hk

end Grows

theorem Sound.of_perm {d d' : Draft} (hs : d.Sound) (hle : d.next ≤ d'.next)
    (hp : (Node.idsAll (d'.content ++ d'.dropped)).Perm
      (Node.idsAll (d.content ++ d.dropped) ++ NodeId.given d.next d'.next)) : d'.Sound where
  nodup := by
    rw [hp.nodup_iff, List.nodup_append]
    refine ⟨hs.nodup, NodeId.nodup_given, fun i hi j hj e => ?_⟩
    subst e
    exact absurd (hs.lt i hi) (Nat.not_lt.mpr (NodeId.mem_given.mp hj).left)
  lt i hi := by
    cases List.mem_append.mp (hp.mem_iff.mp hi)
    case inl hi => have := hs.lt i hi; omega
    case inr hi => exact (NodeId.mem_given.mp hi).right

theorem Sound.of_grows {d d' : Draft} (hs : d.Sound) (h : d.Grows d') : d'.Sound :=
  hs.of_perm h.le h.perm

theorem Sound.nodup_content {d : Draft} (hs : d.Sound) : (Node.idsAll d.content).Nodup := by
  have := hs.nodup
  rw [Node.idsAll_append, List.nodup_append] at this
  exact this.left

end Draft

namespace Node

theorem isText_iff {n : Node} : n.isText ↔ ∃ s, n.kind = .text s := by
  unfold isText Kind.isText
  split
  case h_1 s hk => simp [hk]
  case h_2 h => simpa using h

section Text

variable {n : Node}

@[simp]
theorem id_takeText (k : Nat) : (n.takeText k).id = n.id :=
  rfl

@[simp]
theorem ids_takeText (k : Nat) : (n.takeText k).ids = n.ids :=
  ids_withKind

@[simp]
theorem id_dropText (k : Nat) (fresh : NodeId) : (n.dropText k fresh).id = fresh :=
  rfl

@[simp]
theorem ids_dropText (k : Nat) (fresh : NodeId) : (n.dropText k fresh).ids = [fresh] := by
  simp [dropText]

@[simp]
theorem isText_dropText (k : Nat) (fresh : NodeId) : (n.dropText k fresh).isText :=
  rfl

@[simp]
theorem id_appendText (s : String) : (n.appendText s).id = n.id :=
  rfl

@[simp]
theorem ids_appendText (s : String) : (n.appendText s).ids = n.ids :=
  ids_withKind

@[simp]
theorem id_prependText (s : String) : (n.prependText s).id = n.id :=
  rfl

@[simp]
theorem ids_prependText (s : String) : (n.prependText s).ids = n.ids :=
  ids_withKind

theorem isText_takeText (h : n.isText) (k : Nat) : (n.takeText k).isText := by
  have ⟨s, hs⟩ := isText_iff.mp h
  exact isText_iff.mpr ⟨.ofList (s.toList.take k), by simp [takeText, hs, Kind.mapText]⟩

theorem isText_appendText (h : n.isText) (s : String) : (n.appendText s).isText := by
  have ⟨s', hs⟩ := isText_iff.mp h
  exact isText_iff.mpr ⟨s' ++ s, by simp [appendText, hs, Kind.mapText]⟩

theorem isText_prependText (h : n.isText) (s : String) : (n.prependText s).isText := by
  have ⟨s', hs⟩ := isText_iff.mp h
  exact isText_iff.mpr ⟨s ++ s', by simp [prependText, hs, Kind.mapText]⟩

theorem items_takeText (h : n.isText) (k : Nat) : (n.takeText k).items = n.items.take k := by
  have ⟨s, hs⟩ := isText_iff.mp h
  rw [items_text hs, items_text (s := .ofList (s.toList.take k))
    (by simp [takeText, hs, Kind.mapText])]
  simp [List.map_take]

theorem items_dropText (h : n.isText) (k : Nat) (fresh : NodeId) :
    (n.dropText k fresh).items = n.items.drop k := by
  have ⟨s, hs⟩ := isText_iff.mp h
  rw [items_text hs, items_text (s := .ofList (s.toList.drop k))
    (by simp [dropText, text, hs, Kind.text?])]
  simp [List.map_drop]

theorem items_appendText (h : n.isText) (s : String) :
    (n.appendText s).items = n.items ++ s.toList.map .char := by
  have ⟨s', hs⟩ := isText_iff.mp h
  rw [items_text hs, items_text (s := s' ++ s) (by simp [appendText, hs, Kind.mapText])]
  simp [String.toList_append]

theorem items_prependText (h : n.isText) (s : String) :
    (n.prependText s).items = s.toList.map .char ++ n.items := by
  have ⟨s', hs⟩ := isText_iff.mp h
  rw [items_text hs, items_text (s := s ++ s') (by simp [prependText, hs, Kind.mapText])]
  simp [String.toList_append]

theorem toList_join_text {ns : List Node} (h : ∀ n ∈ ns, n.isText) :
    (String.join (ns.map text)).toList.map Item.char = ns.flatMap items := by
  induction ns with
  | nil => simp [String.join]
  | cons n ns ih =>
    have ⟨s, hs⟩ := isText_iff.mp (h n (.head _))
    have := ih fun m hm => h m (.tail _ hm)
    simp only [String.toList_join, List.map_cons, List.flatMap_cons, List.map_append] at this ⊢
    rw [this, items_text hs, text, hs]
    rfl

theorem length_items_of_isText (h : n.isText) : n.items.length = n.kind.textLength := by
  have ⟨s, hs⟩ := isText_iff.mp h
  simp [items_text hs, hs, Kind.textLength, Kind.text?, String.length_toList]

theorem length_items (h : n.isText) : n.items.length = n.charCount := by
  rw [length_items_of_isText h, charCount_of_isText h]

end Text

theorem find?_holder {ns : List Node} {w m : Node} (h : (idsAll ns).Nodup) (hw : w ∈ ns)
    (hm : m ∈ w.children) : ns.find? (·.children.any (·.id = m.id)) = some w := by
  obtain ⟨before, after, rfl⟩ := List.append_of_mem hw
  rw [List.find?_append, List.find?_eq_none.mpr, Option.none_or, List.find?_cons_of_pos]
  · simpa using ⟨m, hm, rfl⟩
  · intro c hc hany
    obtain ⟨x, hx, e⟩ := by simpa using hany
    simp only [idsAll_append, idsAll_cons, List.nodup_append] at h
    have hmw : m.id ∈ w.ids := by simp [ids_eq, id_mem_idsAll hm]
    have hmc : m.id ∈ idsAll before := by
      refine (ids_sublist_of_mem hc).subset ?_
      simp [ids_eq, ← e, id_mem_idsAll hx]
    exact h.right.right _ hmc _ (List.mem_append_left _ hmw) rfl

theorem find?_holder_of_mem {ns : List Node} {n : Node} (h : (idsAll ns).Nodup) (hn : n ∈ ns) :
    ns.find? (·.children.any (·.id = n.id)) = none := by
  rw [List.find?_eq_none]
  intro c hc hany
  obtain ⟨x, hx, e⟩ := by simpa using hany
  have hxc : x ∈ preorderAll c.children := mem_preorderAll_of_mem hx
  have hcp : c ∈ preorderAll ns := mem_preorderAll_of_mem hc
  have hxn : x ∈ preorderAll ns :=
    (preorderAll_sublist ns hcp).subset (by rw [preorder_eq]; exact .tail _ hxc)
  have := eq_of_id_eq h hxn (mem_preorderAll_of_mem hn) e
  subst this
  obtain ⟨before, after, rfl⟩ := List.append_of_mem hn
  simp only [idsAll_append, idsAll_cons, List.nodup_append] at h
  have hxi : x.id ∈ idsAll c.children := mem_idsAll_iff.mpr ⟨x, hxc, rfl⟩
  cases List.mem_append.mp hc
  case inl hc =>
    refine h.right.right x.id ?_ x.id (by simp [id_mem_ids]) rfl
    exact (ids_sublist_of_mem hc).subset (by simp [ids_eq, hxi])
  case inr hc =>
    cases List.mem_cons.mp hc
    case inl e =>
      have := h.right.left.left
      rw [ids_eq, List.nodup_cons] at this
      exact this.left (e ▸ hxi)
    case inr hc =>
      refine h.right.left.right.right x.id x.id_mem_ids x.id ?_ rfl
      exact (ids_sublist_of_mem hc).subset (by simp [ids_eq, hxi])

theorem takeWhile_id {as bs : List Node} {n : Node} (h : n.id ∉ as.map id) :
    (as ++ n :: bs).takeWhile (·.id ≠ n.id) = as := by
  rw [List.takeWhile_append_of_pos, List.takeWhile_cons_of_neg (by simp), List.append_nil]
  intro m hm
  exact decide_eq_true fun e => h (e ▸ List.mem_map_of_mem hm)

theorem dropWhile_id {as bs : List Node} {n : Node} (h : n.id ∉ as.map id) :
    (as ++ n :: bs).dropWhile (·.id ≠ n.id) = n :: bs := by
  rw [List.dropWhile_append_of_pos, List.dropWhile_cons_of_neg (by simp)]
  intro m hm
  exact decide_eq_true fun e => h (e ▸ List.mem_map_of_mem hm)

theorem not_mem_of_nodup {as bs : List Node} {n : Node} (h : (idsAll (as ++ n :: bs)).Nodup) :
    n.id ∉ as.map id := by
  simp only [idsAll_append, idsAll_cons, List.nodup_append] at h
  intro hm
  have ⟨m, hm, e⟩ := List.mem_map.mp hm
  exact h.right.right _ (id_mem_idsAll hm) _ (by simp [e, id_mem_ids]) rfl

theorem childrenAround_of_children {w n : Node} (hd : (idsAll w.children).Nodup)
    (h : w.children = xs ++ n :: ys) : w.childrenAround n.id = (xs, some n, ys) := by
  rw [h] at hd
  have hn := not_mem_of_nodup hd
  simp only [childrenAround, h, takeWhile_id hn, dropWhile_id hn, List.head?_cons, List.tail_cons]

end Node

namespace Draft

variable {d : Draft} {xs ys : List Node} {w : Node}

theorem next?_of_content (hd : (Node.idsAll d.content).Nodup) (hc : d.content = xs ++ w :: ys) :
    d.next? w.id = ys.head?.map Node.id := by
  have hw := Node.not_mem_of_nodup (hc ▸ hd)
  rw [next?, hc, Node.dropWhile_id hw, List.tail_cons]

theorem prev?_of_content (hd : (Node.idsAll d.content).Nodup) (hc : d.content = xs ++ w :: ys) :
    d.prev? w.id = xs.getLast?.map Node.id := by
  have hw := Node.not_mem_of_nodup (hc ▸ hd)
  have hany : d.content.any (·.id = w.id) := by simp [hc]
  rw [prev?, if_pos hany, hc, Node.takeWhile_id hw]

end Draft

end RichText
