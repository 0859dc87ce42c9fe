import RichText.Paste
import RichText.Tidy
import RichText.Proofs.Conserved
import RichText.Proofs.Edited
import RichText.Proofs.Ordered
import RichText.Proofs.Settled

namespace RichText

namespace Tidy

theorem accounts_dropLastBreak (ns : List Node) : (dropLastBreak ns).Accounts ns := by
  unfold dropLastBreak
  split
  case h_2 => exact Pass.accounts_unchanged ns
  case h_1 last rest h =>
    have hn : ns = rest.reverse ++ [last] := by simpa using congrArg List.reverse h
    split
    case isTrue => simp [Pass.Accounts, hn]
    case isFalse => exact Pass.accounts_unchanged ns

@[simp]
theorem idsAll_guardFirst (ns : List Node) : Node.idsAll (guardFirst ns) = Node.idsAll ns := by
  cases ns <;> simp [guardFirst]

end Tidy

namespace Paste

theorem idsAll_nodesOf (next : Nat) (runs : List Run) : next ≤ (nodesOf next runs).2 ∧
    (Node.idsAll (nodesOf next runs).1).Perm (NodeId.given next (nodesOf next runs).2) := by
  have hn (next : Nat) (r : Run) : next ≤ (nodeOf next r).2 ∧
      (nodeOf next r).1.ids.Perm (NodeId.given next (nodeOf next r).2) := by
    rw [nodeOf]
    split
    case isTrue => simp
    case isFalse => simpa using List.Perm.swap _ _ _
  induction runs generalizing next with
  | nil => simp [nodesOf]
  | cons r runs ih =>
    have ⟨hle, hp⟩ := hn next r
    have ⟨hle', hp'⟩ := ih (nodeOf next r).2
    refine ⟨Nat.le_trans hle hle', ?_⟩
    rw [nodesOf, Node.idsAll_cons, ← NodeId.given_append hle hle']
    exact hp.append hp'

end Paste

namespace Tree

structure Conserves (t t' : Tree) : Prop where
  le : t.made ≤ t'.made
  perm : (Node.idsAll t'.roots).Perm (Node.idsAll t.roots ++ NodeId.given t.made t'.made)

namespace Conserves

variable {t t' t'' : Tree}

theorem refl (t : Tree) : t.Conserves t where
  le := Nat.le_refl _
  perm := by simp

theorem trans (h : t.Conserves t') (h' : t'.Conserves t'') : t.Conserves t'' where
  le := Nat.le_trans h.le h'.le
  perm := NodeId.perm_given_trans h.le h'.le h.perm h'.perm

theorem wf (h : t.Conserves t') (wf : t.WellFormed) : t'.WellFormed := by
  rw [wellFormed_iff] at wf ⊢
  rw [← NodeId.given_append (Nat.zero_le _) h.le]
  exact h.perm.trans (wf.append_right _)

end Conserves

variable {t : Tree} {i : NodeId} {n : Node}

theorem perch_of_nonemptyEndpoints {block : NodeId} {span : Span}
    (h : t.nonemptyEndpoints block span = .ok (e, left, right)) :
    ∃ b s n s' m, t.node? block = some b ∧ Perch b e.start s n ∧ Perch b e.stop s' m := by
  have ⟨_, hep, h⟩ := bind_eq_ok.mp h
  simp only at h
  split at h <;> cases h
  exact perch_of_endpoints hep

theorem made_detach (t : Tree) (i : NodeId) : (t.detach i).made = t.made := by
  unfold detach
  split <;> rfl

theorem made_insert (t : Tree) (parent : NodeId) (index : Nat) (child : NodeId) :
    (t.insert parent index child).made = t.made := by
  unfold insert
  split
  case h_1 => split <;> rfl
  case h_2 => rfl

namespace WellFormed

variable (wf : t.WellFormed)

include wf

theorem conserves_substitute (hn : t.node? i = some n) (f : Node → List Node) (out : List Node)
    {next : Nat} (hle : t.made ≤ next)
    (hp : (Node.idsAll (f n) ++ Node.idsAll out).Perm (n.ids ++ NodeId.given t.made next)) :
    t.Conserves ⟨Node.substituteAll i f t.roots ++ out, next⟩ where
  le := hle
  perm := by
    have h := Node.idsAll_substituteAll_perm t.roots wf.nodup (mem_of_node? hn) hp
    rw [id_of_node? hn] at h
    rwa [Node.idsAll_append]

theorem conserves_replaceChildren (hn : t.node? i = some n) {p : Pass} {next : Nat}
    (hle : t.made ≤ next) (hp : (Node.idsAll p.kept ++ Node.idsAll p.dropped).Perm
      (Node.idsAll n.children ++ NodeId.given t.made next)) :
    t.Conserves { t.replaceChildren i p with made := next } :=
  wf.conserves_substitute hn (fun n => [n.withChildren p.kept]) p.dropped hle
    (by simpa [Node.ids_eq n] using hp)

theorem map_remove_perm {g : Node → β} (hg : ∀ n cs, g (n.withChildren cs) = g n)
    (hn : t.node? i = some n) :
    ((Node.preorderAll (Node.substituteAll i (fun _ => []) t.roots)).map g ++
      n.preorder.map g).Perm ((Node.preorderAll t.roots).map g) := by
  have hp : ((Node.preorderAll []).map g ++ n.preorder.map g).Perm (n.preorder.map g ++ []) := by
    simp [Node.preorderAll]
  have h := Node.map_substituteAll_perm (f := fun _ => []) hg t.roots wf.nodup (mem_of_node? hn) hp
  rwa [id_of_node? hn, List.append_nil] at h

theorem map_detach_perm {g : Node → β} (hg : ∀ n cs, g (n.withChildren cs) = g n) (i : NodeId) :
    ((Node.preorderAll (t.detach i).roots).map g).Perm ((Node.preorderAll t.roots).map g) := by
  unfold detach
  split
  case h_2 => exact .refl _
  case h_1 n _ _ hl =>
    simpa [Node.preorderAll] using wf.map_remove_perm hg (node_of_locate? hl)

theorem conserves_detach (i : NodeId) : t.Conserves (t.detach i) where
  le := Nat.le_of_eq (made_detach t i).symm
  perm := by simpa [made_detach, Node.idsAll] using wf.map_detach_perm (g := Node.id) (fun _ _ => rfl) i

theorem conserves_unwrap (i : NodeId) : t.Conserves (t.unwrap i) := by
  unfold unwrap
  split
  case h_2 => exact .refl t
  case h_1 n _ _ hl =>
    refine wf.conserves_substitute (node_of_locate? hl) _ [n.withChildren []] (Nat.le_refl _) ?_
    rw [Node.ids_eq n]
    simp

theorem conserves_splitText (i : NodeId) (offset : Nat) : t.Conserves (t.splitText i offset).2 := by
  unfold splitText
  split
  case h_2 => exact .refl t
  case h_1 n hn =>
    split
    case isFalse => exact .refl t
    case isTrue =>
      have h := wf.conserves_substitute hn
        (fun n => [n.takeText offset, n.dropText offset ⟨t.made⟩]) [] (Nat.le_succ _) (by simp)
      rwa [List.append_nil] at h

theorem remove_of_not_contains {m : Node} (hn : t.node? i = some n) (hm : t.node? j = some m)
    (h : t.contains i j = false) :
    let rest := Node.substituteAll i (fun _ => []) t.roots
    (Node.idsAll rest ++ n.ids).Perm (Node.idsAll t.roots) ∧ (Node.idsAll rest).Nodup ∧
      ∃ m' ∈ Node.preorderAll rest, m'.id = j := by
  intro rest
  have hr : (Node.idsAll rest ++ n.ids).Perm (Node.idsAll t.roots) := by
    have hp : (Node.idsAll [] ++ n.ids).Perm (n.ids ++ []) := by simp
    have h := Node.idsAll_substituteAll_perm (f := fun _ => []) t.roots wf.nodup
      (mem_of_node? hn) hp
    rwa [id_of_node? hn, List.append_nil] at h
  have hj : j ∈ Node.idsAll t.roots :=
    Node.mem_idsAll_iff.mpr ⟨m, mem_of_node? hm, id_of_node? hm⟩
  refine ⟨hr, (List.nodup_append.mp (hr.nodup_iff.mpr wf.nodup)).left, Node.mem_idsAll_iff.mp ?_⟩
  refine (List.mem_append.mp (hr.mem_iff.mpr hj)).resolve_right fun hj => ?_
  have ⟨l, hl, e⟩ := Node.mem_ids_iff.mp hj
  simp [(wf.contains_iff hn (e ▸ wf.node?_of_mem_preorder hn hl)).mpr hl] at h

theorem map_insert_perm {g : Node → β} (hg : ∀ n cs, g (n.withChildren cs) = g n) (parent : NodeId)
    (index : Nat) (child : NodeId) :
    ((Node.preorderAll (t.insert parent index child).roots).map g).Perm
      ((Node.preorderAll t.roots).map g) := by
  unfold insert
  split
  case h_2 => exact .refl _
  case h_1 p n hp hn =>
    split
    case isTrue => exact .refl _
    case isFalse hc =>
      obtain ⟨_, hd, m, hm, rfl⟩ := wf.remove_of_not_contains hn hp (by simpa using hc)
      let cs := m.children.take index ++ n :: m.children.drop index
      have hi : ((Node.preorderAll [m.withChildren cs]).map g ++ []).Perm
          (m.preorder.map g ++ n.preorder.map g) := by
        have := congrArg (fun ns => (Node.preorderAll ns).map g)
          (List.take_append_drop index m.children)
        simp only [Node.preorderAll_append, List.map_append] at this
        simp only [Node.preorder_eq m, List.map_cons, ← this]
        simpa [Node.preorderAll, Node.preorder_eq (m.withChildren cs), hg, cs] using
          List.perm_append_comm.append_left _
      have h := Node.map_substituteAll_perm (f := fun m => [m.withChildren
        (m.children.take index ++ n :: m.children.drop index)]) hg _ hd hm hi
      rw [List.append_nil] at h
      exact h.trans (wf.map_remove_perm hg hn)

theorem conserves_insert (parent : NodeId) (index : Nat) (child : NodeId) :
    t.Conserves (t.insert parent index child) where
  le := Nat.le_of_eq (made_insert t parent index child).symm
  perm := by
    have h := wf.map_insert_perm (g := Node.id) (fun _ _ => rfl) parent index child
    simpa [made_insert, Node.idsAll] using h

theorem conserves_append (parent child : NodeId) : t.Conserves (t.append parent child) :=
  wf.conserves_insert ..

theorem conserves_insertBefore (reference child : NodeId) :
    t.Conserves (t.insertBefore reference child) := by
  have h := wf.conserves_detach child
  unfold insertBefore
  simp only
  split
  case h_1 => exact h.trans ((h.wf wf).conserves_insert ..)
  case h_2 => exact h

theorem conserves_insertAfter (reference child : NodeId) :
    t.Conserves (t.insertAfter reference child) := by
  have h := wf.conserves_detach child
  unfold insertAfter
  simp only
  split
  case h_1 => exact h.trans ((h.wf wf).conserves_insert ..)
  case h_2 => exact h

theorem conserves_moveRun (first target : NodeId) : t.Conserves (t.moveRun first target) := by
  have hf (ids : List NodeId) : t.Conserves (ids.foldl (fun t id => t.append target id) t) := by
    induction ids generalizing t with
    | nil => exact .refl t
    | cons i ids ih =>
      have h := wf.conserves_append target i
      exact h.trans (ih (h.wf wf))
  unfold moveRun
  split
  case h_1 => exact hf _
  case h_2 => exact .refl t

theorem conserves_parseInto (hi : i.index < t.made) (markup : String) :
    t.Conserves (t.parseInto i markup).1 := by
  have ⟨n, hn⟩ := wf.exists_node? hi
  have ⟨hle, ho⟩ := Markup.Builder.idsAll_nodes_parseAfter (t.children i) t.made markup
  rw [children_of_node? hn] at hle ho
  have h := wf.conserves_replaceChildren hn
    (p := ⟨(Markup.parseAfter n.children t.made markup).1.nodes, []⟩) hle (by simp [ho])
  simpa [parseInto, Tree.replaceChildren, children_of_node? hn] using h

theorem conserves_of_accounts (hn : t.node? i = some n) {p : Pass} (h : p.Accounts n.children) :
    t.Conserves (t.replaceChildren i p) :=
  have hp : (Node.idsAll p.kept ++ Node.idsAll p.dropped).Perm
      (Node.idsAll n.children ++ NodeId.given t.made t.made) := by simpa [Pass.Accounts] using h
  wf.conserves_replaceChildren hn (Nat.le_refl t.made) hp

theorem conserves_canonicalize (block : NodeId) : t.Conserves (t.canonicalize block).2 := by
  cases hb : t.node? block with
  | none =>
    have hc : t.children block = [] := by simp [children, hb]
    have h : (t.canonicalize block).1 = false := canonicalize_fst_eq_false.mpr (hc ▸ by decide)
    rw [canonicalize_snd_eq_self.mp h]
    exact .refl t
  | some b =>
    rw [Tree.canonicalize, children_of_node? hb]
    split
    case isFalse => exact .refl t
    case isTrue => exact wf.conserves_of_accounts hb (Canonical.accounts_canonicalize b.children)

theorem conserves_tidy (hi : i.index < t.made) : t.Conserves (t.tidy i).2 := by
  have ⟨b, hb⟩ := wf.exists_node? hi
  rw [tidy, children_of_node? hb]
  split
  case isFalse => exact .refl t
  case isTrue =>
    refine wf.conserves_of_accounts hb ?_
    simpa [Pass.Accounts] using Tidy.accounts_dropLastBreak b.children

theorem conserves_redraft {block : NodeId} {b : Node} (hb : t.node? block = some b)
    {f : Draft → Draft} (hf : (Draft.mk (t.children block) [] t.made).Conserves
      (f ⟨t.children block, [], t.made⟩)) :
    t.Conserves ((t.redraft block f).canonicalize block).2 := by
  have hp := hf.perm
  have h : t.Conserves (t.redraft block f) := wf.conserves_replaceChildren hb hf.le
    (by simpa [children_of_node? hb] using hp)
  exact h.trans ((h.wf wf).conserves_canonicalize block)

theorem conserves_applyStyle {block : NodeId} {span : Span} {tag : String}
    (h : t.applyStyle block span tag = .ok (r, t')) : t.Conserves t' := by
  have ⟨⟨e, _, _⟩, hn, h⟩ := bind_eq_ok.mp ((applyStyle_eq ..).symm.trans h)
  cases h
  have ⟨b, s, n, _, _, hb, hp, _⟩ := perch_of_nonemptyEndpoints hn
  have hi : e.start.node ∈ Node.idsAll (t.children block) := by
    rw [children_of_node? hb, hp.children, hp.node]
    exact Node.mem_idsAll_iff.mpr ⟨n, Seat.mem_preorderAll_plug (.head _), rfl⟩
  exact wf.conserves_redraft hb ((wf.sound hb).conserves_apply hi tag)

theorem conserves_clearWithin {w : Node} (hw : t.node? w.id = some w) (e : Endpoints)
    (tag : String) : t.Conserves (t.clearWithin w e tag) := by
  have ⟨hle, hp⟩ := w.idsAll_cutAround e.start.node e.start.offset e.stop.offset t.made
  unfold clearWithin
  generalize w.cutAround e.start.node e.start.offset e.stop.offset t.made = cut at hle hp ⊢
  let bare := cut.middle.removeStyle tag
  let p := if (t.parent? w.id).isSome then bare.dissolve else ⟨[bare], []⟩
  have ha : p.Accounts [bare] := by
    unfold p
    split
    case isTrue => exact Canonical.accounts_dissolve bare
    case isFalse => exact Pass.accounts_unchanged [bare]
  refine wf.conserves_substitute hw (fun _ => cut.before ++ p.kept ++ cut.after) p.dropped hle
    (List.perm_iff_count.mpr fun i => ?_)
  have hp := hp.count_eq i
  have ha := ha.count_eq i
  simp only [Node.idsAll_append, Node.idsAll_cons, Node.idsAll_nil, List.append_nil,
    List.count_append] at hp ha ⊢
  have hb : bare.ids.count i = _ := congrArg (List.count i) Node.ids_withKind
  omega

theorem conserves_clearStyle {block : NodeId} {span : Span} {tag : String}
    (h : t.clearStyle block span tag = .ok (r, t')) : t.Conserves t' := by
  have ⟨⟨e, _, _⟩, hn, h⟩ := bind_eq_ok.mp ((clearStyle_eq ..).symm.trans h)
  simp only at h
  split at h
  case isTrue =>
    split at h
    case h_2 => cases h; exact .refl t
    case h_1 w hw =>
      split at h <;> cases h
      case isFalse => exact .refl t
      case isTrue =>
        have ⟨i, _, hw⟩ := Option.bind_eq_some_iff.mp hw
        have hc := wf.conserves_clearWithin (id_of_node? hw ▸ hw) e tag
        exact hc.trans ((hc.wf wf).conserves_canonicalize block)
  case isFalse =>
    cases h
    have ⟨b, _, _, _, _, hb, _⟩ := perch_of_nonemptyEndpoints hn
    exact wf.conserves_redraft hb ((wf.sound hb).conserves_clear e tag)

theorem conserves_apply (block : NodeId) (span : Span) (tag : String) :
    t.Conserves (t.apply block span tag).2 := by
  rw [apply_eq]
  cases h : t.applyStyle block span tag with
  | error => exact .refl t
  | ok a => exact wf.conserves_applyStyle h

theorem conserves_clear (block : NodeId) (span : Span) (tag : String) :
    t.Conserves (t.clear block span tag).2 := by
  rw [clear_eq]
  cases h : t.clearStyle block span tag with
  | error => exact .refl t
  | ok a => exact wf.conserves_clearStyle h

theorem conserves_toggle (block : NodeId) (span : Span) (tag : String) :
    t.Conserves (t.toggle block span tag).2 := by
  rw [toggle]
  split
  case isTrue => exact wf.conserves_clear ..
  case isFalse => exact wf.conserves_apply ..

end WellFormed

theorem conserves_create (t : Tree) (kind : Kind) : t.Conserves (t.create kind).2 where
  le := Nat.le_succ _
  perm := by simp [create]

theorem conserves_pasteFragment (t : Tree) (runs : List Run) :
    t.Conserves (t.pasteFragment runs).2 := by
  have ⟨hle, hp⟩ := Paste.idsAll_nodesOf (t.made + 1) runs
  refine ⟨Nat.le_of_succ_le hle, ?_⟩
  have hg := NodeId.given_append (Nat.le_succ t.made) hle
  rw [NodeId.given_one] at hg
  rw [pasteFragment, ← hg]
  simpa using (hp.cons _).append_left _

end Tree

end RichText
