import RichText.Proofs.Edited

namespace RichText

theorem Kind.isStyleable_of_isSolid {n : Node} (h : n.kind.isSolid) : n.isStyleable = false := by
  cases hk : n.kind <;> simp_all [Kind.isSolid, Kind.isLeaf, Kind.isText, Kind.isWrapper,
    Node.isStyleable, Node.isText, Node.isWrapper]

def Kind.isRegion (k : Kind) : Bool :=
  k.blockIndex?.isSome || k.isCell

theorem Kind.isSolid_of_isRegion {k : Kind} (h : k.isRegion) : k.isSolid := by
  cases k <;> first | rfl | contradiction

namespace Node

structure Alike (n n' : Node) : Prop where
  kind : n'.kind = n.kind
  marks : n'.marks = n.marks
  solids : n'.solids = n.solids
  leavesEmpty : n.LeavesEmpty → n'.LeavesEmpty

theorem Alike.refl (n : Node) : n.Alike n :=
  ⟨rfl, rfl, rfl, fun h => h⟩

theorem Alike.trans {n n' n'' : Node} (h : n.Alike n') (h' : n'.Alike n'') : n.Alike n'' :=
  ⟨h'.kind.trans h.kind, h'.marks.trans h.marks, h'.solids.trans h.solids,
    h'.leavesEmpty ∘ h.leavesEmpty⟩

section Rebuild

variable {target : NodeId} {g : Node → Node} {x : Node}

mutual

theorem mem_preorder_rebuild (n : Node) (h : x ∈ (n.rebuild target g).preorder) :
    ∃ m ∈ n.preorder, x = m.rebuild target g ∨ m.id = target ∧ x ∈ (g m).preorder := by
  have ⟨i, k, cs⟩ := n
  by_cases hi : i = target
  case pos =>
    have hi : (mk i k cs).id = target := hi
    rw [rebuild, if_pos hi] at h
    exact ⟨_, mem_preorder_self _, .inr ⟨hi, h⟩⟩
  case neg =>
    have hi : (mk i k cs).id ≠ target := hi
    have e := rebuild_of_ne (g := g) hi
    rw [e, preorder_eq, List.mem_cons] at h
    cases h
    case inl h => exact ⟨_, mem_preorder_self _, .inl (h.trans e.symm)⟩
    case inr h =>
      have ⟨m, hm, h⟩ := mem_preorderAll_rebuild cs h
      exact ⟨m, .tail _ hm, h⟩

theorem mem_preorderAll_rebuild (ns : List Node) (h : x ∈ preorderAll (ns.map (rebuild target g))) :
    ∃ m ∈ preorderAll ns, x = m.rebuild target g ∨ m.id = target ∧ x ∈ (g m).preorder := by
  match ns with
  | [] => contradiction
  | n :: ns =>
    cases List.mem_append.mp h
    case inl h =>
      have ⟨m, hm, h⟩ := mem_preorder_rebuild n h
      exact ⟨m, List.mem_append_left _ hm, h⟩
    case inr h =>
      have ⟨m, hm, h⟩ := mem_preorderAll_rebuild ns h
      exact ⟨m, List.mem_append_right _ hm, h⟩

end

end Rebuild

end Node

namespace Canonical

variable {ns : List Node} {f : Node → Node}

section Map

variable (hk : ∀ n, (f n).kind = n.kind)

include hk

theorem Merged.map (h : Merged ns) : Merged (ns.map f) where
  nonempty := by simpa [Node.isEmptyText, Node.isText, Node.text, hk] using h.nonempty
  apart := by simpa [List.isChain_map, Node.isText, hk] using h.apart

theorem IsCanonical.map (h : IsCanonical ns)
    (hc : ∀ n ∈ ns, n.isWrapper → (f n).children = n.children.map f) : IsCanonical (ns.map f) where
  merged := h.merged.map hk
  mergedInside := by
    simp only [List.forall_mem_map, Node.isWrapper, hk]
    exact fun n hn hw => hc n hn hw ▸ (h.mergedInside n hn hw).map hk
  styled := by simpa [hk] using h.styled
  nonempty := by
    simp only [List.forall_mem_map, Node.isWrapper, hk]
    intro n hn hw
    rw [hc n hn hw]
    simpa using h.nonempty n hn hw
  distinct := by simpa [List.isChain_map, Node.sameStyles, hk] using h.distinct

end Map

end Canonical

namespace Tree

variable {t t' t'' : Tree} {block i : NodeId} {b n : Node} {cs : List Node}

def IsCanonical (t : Tree) : Prop :=
  ∀ n ∈ Node.preorderAll t.roots, n.kind.isRegion → Canonical.IsCanonical n.children

instance : Decidable t.IsCanonical :=
  inferInstanceAs (Decidable (∀ n ∈ Node.preorderAll t.roots, _))

namespace Edited

variable (h : t.Edited t' block b cs) (wf : t.WellFormed) (hb : t.node? block = some b)
  (he : b.LeavesEmpty) (hs : b.kind.isSolid)

include h hb he

theorem leavesEmptyAll : Node.LeavesEmptyAll cs :=
  have ⟨_, _, hl⟩ := h.roots
  (hl (by rw [children_of_node? hb]; exact he.children)).left

include hs

theorem alike_withChildren : b.Alike (b.withChildren cs) where
  kind := rfl
  marks := Node.marks_withChildren h.outline
  solids := Node.solids_withChildren h.outline (h.leavesEmptyAll hb he) he.children
  leavesEmpty _ := Node.leavesEmpty_iff.mpr
    ⟨by simp [Kind.isLeaf_of_isSolid hs], h.leavesEmptyAll hb he⟩

include wf

theorem alike_rebuild (hn : n ∈ Node.preorderAll t.roots) :
    n.Alike (n.rebuild block (·.withChildren cs)) := by
  have ha := h.alike_withChildren hb he hs
  have same {m : Node} (hm : m ∈ n.preorder) (hi : m.id = block) : m = b :=
    Node.eq_of_id_eq wf.nodup ((Node.preorderAll_sublist _ hn).subset hm) (mem_of_node? hb)
      (hi.trans (id_of_node? hb).symm)
  have e : n.substitute block (fun m => [m.withChildren cs]) =
      [n.rebuild block (·.withChildren cs)] := n.substitute_eq_rebuild
  refine ⟨Node.kind_rebuild, ?marks, ?solids, fun hl => ?leavesEmpty⟩
  case marks =>
    have hm := Node.marks_substitute n fun m hm hi =>
      show Node.marksAll [m.withChildren cs] = m.marks by
        rw [same hm hi]
        simp [Node.marksAll, ha.marks]
    rw [e] at hm
    simpa [Node.marksAll] using hm
  case solids =>
    have hm := Node.solids_substitute n fun m hm hi =>
      show Node.solidsAll [m.withChildren cs] = m.solids by
        rw [same hm hi]
        simp [ha.solids]
    rw [e] at hm
    simpa using hm
  case leavesEmpty =>
    have hm := Node.leavesEmptyAll_substitute n hl fun m hm hi =>
      show Node.LeavesEmptyAll [m.withChildren cs] by
        rw [same hm hi]
        simpa using ha.leavesEmpty he
    rw [e] at hm
    simpa using hm

omit wf hs in
theorem node?_inside (hn : n ∈ Node.preorderAll b.children) (hs : n.isStyleable = false) :
    t'.node? n.id = some n := by
  have hm := Node.mem_preorderAll_of_outline_eq h.outline.symm he.children hn hs
  refine h.wf.node?_of_mem_preorder (h.node? hb) ?_
  rw [Node.preorder_eq, Node.children_withChildren]
  exact .tail _ hm

omit hs in
theorem recut (hn : t.node? i = some n) (hk : n.kind.isSolid) (ho : block ≠ i → block ∉ n.ids) :
    ∃ cs', t'.node? i = some (n.withChildren cs') ∧
      Node.outlineAll cs' = Node.outlineAll n.children := by
  by_cases hi : block = i
  case pos =>
    subst hi
    cases hb.symm.trans hn
    exact ⟨cs, h.node? hb, h.outline⟩
  case neg =>
    refine ⟨n.children, ?_, rfl⟩
    rw [Node.withChildren_children]
    cases hc : t.contains block i
    case false => rw [h.node?_of_outside hn hc, Node.rebuild_of_not_mem (ho hi)]
    case true =>
      have hm := (wf.contains_iff hb hn).mp hc
      rw [Node.preorder_eq, List.mem_cons] at hm
      have hm := hm.resolve_left fun e => hi (by rw [← id_of_node? hn, e, id_of_node? hb])
      exact id_of_node? hn ▸ h.node?_inside hb he hm (Kind.isStyleable_of_isSolid hk)

theorem alike (hn : t.node? i = some n) (ho : n.kind.isSolid ∨ t.contains block i = false) :
    ∃ n', t'.node? i = some n' ∧ n.Alike n' := by
  cases hc : t.contains block i
  case false =>
    exact ⟨_, h.node?_of_outside hn hc, h.alike_rebuild wf hb he hs (mem_of_node? hn)⟩
  case true =>
    have hm := (wf.contains_iff hb hn).mp hc
    have hi := id_of_node? hn
    rw [Node.preorder_eq, List.mem_cons] at hm
    cases hm
    case inl e =>
      have hi := hi.symm.trans ((congrArg Node.id e).trans (id_of_node? hb))
      subst e hi
      exact ⟨_, h.node? hb, h.alike_withChildren hb he hs⟩
    case inr hm =>
      have hn' := h.node?_inside hb he hm
        (Kind.isStyleable_of_isSolid (ho.resolve_right (by simp [hc])))
      exact ⟨n, hi ▸ hn', .refl n⟩

omit hs in
theorem region_cases (hn : n ∈ Node.preorderAll t'.roots) (hk : n.kind.isRegion) :
    n = b.withChildren cs ∨ n ∈ Node.preorderAll b.children ∨
      ∃ m ∈ Node.preorderAll t.roots, m.id ≠ block ∧ n = m.rebuild block (·.withChildren cs) := by
  have hst := Kind.isStyleable_of_isSolid (Kind.isSolid_of_isRegion hk)
  have ⟨extra, hr, hl⟩ := h.roots
  have ⟨hcs, hx⟩ := hl (by rw [children_of_node? hb]; exact he.children)
  rw [hr, Node.preorderAll_append, Node.substituteAll_eq_map, List.mem_append] at hn
  cases hn
  case inr hn =>
    rw [Node.preorderAll_eq_flatMap] at hn
    have ⟨x, hxe, hn⟩ := List.mem_flatMap.mp hn
    have ⟨hxs, hxc⟩ := hx x hxe
    rw [Node.preorder_eq, hxc, Node.preorderAll, List.mem_singleton] at hn
    simp [hn, hxs] at hst
  case inl hn =>
    have ⟨m, hm, hn⟩ := Node.mem_preorderAll_rebuild _ hn
    by_cases hi : m.id = block
    case neg => exact .inr (.inr ⟨m, hm, hi, hn.resolve_right fun hn => hi hn.left⟩)
    case pos =>
      cases Node.eq_of_id_eq wf.nodup hm (mem_of_node? hb) (hi.trans (id_of_node? hb).symm)
      have hn : n ∈ (b.withChildren cs).preorder := by
        cases hn
        case inl hn => simp [hn, ← hi, Node.rebuild_self, Node.mem_preorder_self]
        case inr hn => exact hn.right
      rw [Node.preorder_eq, List.mem_cons] at hn
      exact hn.imp_right fun hn => .inl (Node.mem_preorderAll_of_outline_eq h.outline hcs hn hst)

theorem isCanonical (hc : t.IsCanonical) : t'.IsCanonical := by
  intro n hn hk
  obtain rfl | hn | ⟨m, hm, hi, rfl⟩ := h.region_cases wf hb he hn hk
  case inl =>
    have hcb := hc b (mem_of_node? hb) hk
    exact h.canonical.elim id fun e => by rwa [Node.children_withChildren, e]
  case inr.inl =>
    have hn : n ∈ b.preorder := by simp [Node.preorder_eq, hn]
    exact hc n ((Node.preorderAll_sublist _ (mem_of_node? hb)).subset hn) hk
  case inr.inr =>
    rw [Node.kind_rebuild] at hk
    rw [Node.rebuild_of_ne hi, Node.children_withChildren]
    refine (hc m hm hk).map (fun _ => Node.kind_rebuild) fun w hw hwr => ?_
    -- A wrapper is not what is edited.
    have hwi : w.id ≠ block := by
      intro e
      have hwm := Node.mem_preorder_of_child hw w.mem_preorder_self
      have hwm := (Node.preorderAll_sublist _ hm).subset hwm
      cases Node.eq_of_id_eq wf.nodup hwm (mem_of_node? hb) (e.trans (id_of_node? hb).symm)
      exact absurd hwr (by simp [Node.isWrapper, Kind.isWrapper_of_isSolid hs])
    rw [Node.rebuild_of_ne hwi, Node.children_withChildren]

end Edited

structure Revised (t t' : Tree) (blocks : List NodeId) : Prop where
  wf : t'.WellFormed
  leavesEmpty : t.LeavesEmpty → t'.LeavesEmpty
  alike : ∀ {i n}, t.node? i = some n →
    (n.kind.isSolid ∨ ∀ block ∈ blocks, t.contains block i = false) →
    ∃ n', t'.node? i = some n' ∧ n.Alike n'
  recut : ∀ {i n}, t.node? i = some n → n.kind.isSolid → n.LeavesEmpty →
    (∀ block ∈ blocks, block ≠ i → block ∉ n.ids) →
    ∃ cs, t'.node? i = some (n.withChildren cs) ∧ Node.outlineAll cs = Node.outlineAll n.children
  isCanonical : t.IsCanonical → t'.IsCanonical
  unmoved : ∀ {i n}, t.node? i = some n → (∀ block ∈ blocks, t.contains block i = false) →
    t.Unmoved t' i ∧ t'.lineage i = t.lineage i

theorem Edited.revised (h : t.Edited t' block b cs) (wf : t.WellFormed)
    (hb : t.node? block = some b) (he : b.LeavesEmpty) (hs : b.kind.isSolid) :
    t.Revised t' [block] where
  wf := h.wf
  leavesEmpty hl := h.leavesEmpty wf hb hl (Kind.isLeaf_of_isSolid hs)
  alike hn ho := h.alike wf hb he hs hn (by simpa using ho)
  recut hn hk _ ho := h.recut wf hb he hn hk (by simpa using ho)
  isCanonical := h.isCanonical wf hb he hs
  unmoved hn ho :=
    have ho := ho block (.head _)
    ⟨h.unmoved hn ho, h.lineage_of_outside hn ho⟩

namespace Revised

theorem refl (wf : t.WellFormed) : t.Revised t blocks where
  wf := wf
  leavesEmpty := id
  alike hn _ := ⟨_, hn, .refl _⟩
  recut {_ n} hn _ _ _ := ⟨n.children, by rw [hn, Node.withChildren_children], rfl⟩
  isCanonical := id
  unmoved _ _ := ⟨.refl .., rfl⟩

section Trans

variable {xs ys : List NodeId} (h : t.Revised t' xs)

include h

theorem contains_eq (hn : t.node? i = some n) (ho : ∀ block ∈ xs, t.contains block i = false)
    (block : NodeId) : t'.contains block i = t.contains block i := by
  rw [contains, contains, (h.unmoved hn ho).right]

theorem leavesEmpty_of_node? (hn : t.node? i = some n) (hs : n.kind.isSolid) (he : n.LeavesEmpty)
    (hn' : t'.node? i = some n') : n'.LeavesEmpty := by
  have ⟨_, hm, ha⟩ := h.alike hn (.inl hs)
  cases hm.symm.trans hn'
  exact ha.leavesEmpty he

theorem not_mem_ids (hi : t'.node? i = some (n.withChildren cs)) (hid : n.id = i)
    (hl : (n.withChildren cs).LeavesEmpty) (hcs : Node.outlineAll cs = Node.outlineAll n.children)
    (hb : t.node? block = some b) (hs : b.kind.isSolid) (hne : block ≠ i) (ho : block ∉ n.ids) :
    block ∉ (n.withChildren cs).ids := by
  intro hm
  have ⟨m, hm, e⟩ := Node.mem_ids_iff.mp hm
  have ⟨b', hb', ha⟩ := h.alike hb (.inl hs)
  cases hb'.symm.trans (e ▸ h.wf.node?_of_mem_preorder hi hm)
  rw [Node.preorder_eq, List.mem_cons] at hm
  cases hm
  case inl hm => exact hne (by rw [← e, hm, Node.id_withChildren, hid])
  case inr hm =>
    have hst := Kind.isStyleable_of_isSolid (ha.kind ▸ hs)
    have hm := Node.mem_preorderAll_of_outline_eq hcs hl.children hm hst
    exact ho (Node.mem_ids_iff.mpr ⟨m, by simp [Node.preorder_eq, hm], e⟩)

theorem trans (h' : t'.Revised t'' ys) (hy : ∀ block ∈ ys, ∃ b, t.node? block = some b ∧
    b.kind.isSolid) : t.Revised t'' (xs ++ ys) where
  wf := h'.wf
  leavesEmpty := h'.leavesEmpty ∘ h.leavesEmpty
  alike {i n} hn ho := by
    simp only [List.forall_mem_append] at ho
    have ⟨n', hn', ha⟩ := h.alike hn (ho.imp_right And.left)
    have ho' : n'.kind.isSolid ∨ ∀ block ∈ ys, t'.contains block i = false :=
      ho.imp (ha.kind ▸ ·) fun ho block hb => by rw [h.contains_eq hn ho.left, ho.right block hb]
    have ⟨n'', hn'', ha'⟩ := h'.alike hn' ho'
    exact ⟨n'', hn'', ha.trans ha'⟩
  recut {i n} hn hk he ho := by
    rw [List.forall_mem_append] at ho
    have ⟨cs, hcs, e⟩ := h.recut hn hk he ho.left
    have hl := h.leavesEmpty_of_node? hn hk he hcs
    have ⟨cs', hcs', e'⟩ := h'.recut hcs hk hl fun block hb hne => by
      have ⟨b, hb', hs⟩ := hy block hb
      exact h.not_mem_ids hcs (id_of_node? hn) hl e hb' hs hne (ho.right block hb hne)
    exact ⟨cs', hcs', e'.trans e⟩
  isCanonical hc := h'.isCanonical (h.isCanonical hc)
  unmoved {i n} hn ho := by
    rw [List.forall_mem_append] at ho
    have ⟨hu, hl⟩ := h.unmoved hn ho.left
    have ⟨n', hn', _⟩ := h.alike hn (.inr ho.left)
    have ⟨hu', hl'⟩ := h'.unmoved hn' fun block hb => by
      rw [h.contains_eq hn ho.left, ho.right block hb]
    exact ⟨hu.trans hu', hl'.trans hl⟩

end Trans

end Revised

end Tree

end RichText
