import RichText.Proofs.LeafWalk
import RichText.Proofs.Limits
import RichText.Proofs.LinedBlock
import RichText.Proofs.Links
import RichText.Proofs.PastedText

namespace RichText

namespace Tidy

variable {ns ms : List Node} {n : Node}

-- A last break stands for an empty line, with no other break right before it.
def Dangles (ns : List Node) : Prop :=
  ∃ init last, ns = init ++ [last] ∧ last.kind = .lineBreak false ∧
    ∀ n ∈ init.getLast?, n.kind.isBreak = false

theorem dropLastBreak_cases (ns : List Node) :
    (¬Dangles ns ∧ dropLastBreak ns = .unchanged ns) ∨
      Dangles ns ∧ ∃ init last, ns = init ++ [last] ∧ last.kind = .lineBreak false ∧
        ¬Dangles init ∧ dropLastBreak ns = ⟨init, [last]⟩ := by
  unfold dropLastBreak
  split
  case h_2 h =>
    refine .inl ⟨fun ⟨init, last, e, _⟩ => ?_, rfl⟩
    simp [e] at h
  case h_1 last rest h =>
    have e : ns = rest.reverse ++ [last] := by simpa using congrArg List.reverse h
    split
    case isTrue hd =>
      rw [Bool.and_eq_true, decide_eq_true_eq] at hd
      have hb : ∀ n ∈ rest.reverse.getLast?, n.kind.isBreak = false := by
        intro n hn
        rw [List.getLast?_reverse] at hn
        simpa [Option.mem_def.mp hn] using hd.right
      refine .inr ⟨⟨_, last, e, hd.left, hb⟩, _, last, e, hd.left, fun ⟨init, m, hm, hk, _⟩ => ?_, rfl⟩
      have := hb m (by simp [hm])
      simp [hk, Kind.isBreak] at this
    case isFalse hd =>
      refine .inl ⟨fun ⟨init, m, hm, hk, hb⟩ => hd ?_, rfl⟩
      obtain ⟨rfl, e⟩ := List.append_inj' (e.symm.trans hm) rfl
      obtain rfl : last = m := by simpa using e
      cases rest with
      | nil => simp [hk]
      | cons r rest => simpa [hk] using hb

theorem guardText_cases (s : String) :
    ((∀ rest, s ≠ " " ++ rest) ∧ guardText s = s) ∨
      ∃ rest, s = " " ++ rest ∧ guardText s = "\u00a0" ++ rest := by
  unfold guardText
  split
  case h_1 cs h =>
    refine .inr ⟨.ofList cs, ?_, ?_⟩ <;> apply String.toList_inj.mp <;> simp [h]
  case h_2 h =>
    exact .inl ⟨fun rest e => h rest.toList (by simp [e]), rfl⟩

theorem guardFirst_cases (ns : List Node) :
    ((∀ n ∈ ns.head?, ∀ s, n.kind ≠ .text (" " ++ s)) ∧ guardFirst ns = ns) ∨
      ∃ n ms s, ns = n :: ms ∧ n.kind = .text (" " ++ s) ∧
        guardFirst ns = n.withKind (.text ("\u00a0" ++ s)) :: ms := by
  match ns with
  | [] => exact .inl ⟨nofun, rfl⟩
  | .mk i k cs :: ms =>
    cases k with
    | text s =>
      obtain ⟨hs, e⟩ | ⟨rest, hs, e⟩ := guardText_cases s
      case inl => exact .inl ⟨by simpa using hs, by simp [guardFirst, Kind.mapText, Node.withKind, e]⟩
      case inr => exact .inr ⟨_, ms, rest, rfl, congrArg _ hs, by simp [guardFirst, Kind.mapText, e]⟩
    | _ => exact .inl ⟨by simp, rfl⟩

theorem dangles_guardFirst (h : Dangles (guardFirst ns)) : Dangles ns := by
  obtain ⟨_, e⟩ | ⟨n, ms, s, rfl, hk, e⟩ := guardFirst_cases ns
  case inl => rwa [← e]
  case inr =>
    obtain ⟨init, last, hl, hb, hp⟩ := e ▸ h
    cases init with
    | nil =>
      obtain rfl : n.withKind (.text ("\u00a0" ++ s)) = last := (List.cons.inj hl).left
      contradiction
    | cons m init =>
      obtain ⟨rfl, rfl⟩ := List.cons.inj hl
      refine ⟨n :: init, last, rfl, hb, ?_⟩
      cases init with
      | nil => simp [hk, Kind.isBreak]
      | cons => simpa using hp

theorem not_dangles_kept (ns : List Node) : ¬Dangles (guardFirst (dropLastBreak ns).kept) := by
  refine mt dangles_guardFirst ?_
  obtain ⟨h, e⟩ | ⟨_, init, last, _, _, h, e⟩ := dropLastBreak_cases ns
  case inl => rwa [e]
  case inr => rwa [e]

theorem dropLastBreak_of_not_dangles (h : ¬Dangles ns) : dropLastBreak ns = .unchanged ns := by
  obtain ⟨_, e⟩ | ⟨hd, _⟩ := dropLastBreak_cases ns
  case inl => exact e
  case inr => contradiction

theorem guardFirst_guardFirst (ns : List Node) : guardFirst (guardFirst ns) = guardFirst ns := by
  obtain ⟨_, e⟩ | ⟨n, ms, s, rfl, _, e⟩ := guardFirst_cases ns
  case inl => rw [e, e]
  case inr =>
    obtain ⟨_, e'⟩ | ⟨_, _, s', hm, hk, _⟩ := guardFirst_cases (guardFirst (n :: ms))
    case inl => exact e'
    case inr =>
      obtain ⟨rfl, -⟩ := List.cons.inj (e.symm.trans hm)
      have := congrArg String.toList (Kind.text.inj hk)
      simp at this

theorem kept_append_dropped (ns : List Node) :
    (dropLastBreak ns).kept ++ (dropLastBreak ns).dropped = ns := by
  obtain ⟨_, e⟩ | ⟨_, init, last, rfl, _, _, e⟩ := dropLastBreak_cases ns
  case inl => simp [e, Pass.unchanged]
  case inr => rw [e]

def pass (ns : List Node) : Pass :=
  ⟨guardFirst (dropLastBreak ns).kept, (dropLastBreak ns).dropped⟩

theorem pass_cases (ns : List Node) : ∃ cs, ∃ last : Option Node, ns = cs ++ last.toList ∧
    (∀ n ∈ last, n.kind = .lineBreak false) ∧ (last.isSome → Dangles ns) ∧
    ((∀ n ∈ ns.head?, ∀ s, n.kind ≠ .text (" " ++ s)) ∧ pass ns = ⟨cs, last.toList⟩ ∨
      ∃ n ms s, cs = n :: ms ∧ n.kind = .text (" " ++ s) ∧
        pass ns = ⟨n.withKind (.text ("\u00a0" ++ s)) :: ms, last.toList⟩) := by
  have hd : ∃ cs, ∃ last : Option Node, ns = cs ++ last.toList ∧
      (∀ n ∈ last, n.kind = .lineBreak false) ∧ (last.isSome → Dangles ns) ∧
      dropLastBreak ns = ⟨cs, last.toList⟩ := by
    obtain ⟨_, e⟩ | ⟨hd, init, last, hn, hk, _, e⟩ := dropLastBreak_cases ns
    case inl => exact ⟨ns, none, by simp, nofun, nofun, e⟩
    case inr => exact ⟨init, some last, hn, by simpa using hk, fun _ => hd, e⟩
  obtain ⟨cs, last, hn, hl, hd, e⟩ := hd
  refine ⟨cs, last, hn, hl, hd, ?_⟩
  rw [pass, e]
  obtain ⟨hs, h⟩ | ⟨n, ms, s, hc, hk, h⟩ := guardFirst_cases cs
  case inr => exact .inr ⟨n, ms, s, hc, hk, by rw [h]⟩
  case inl =>
    refine .inl ⟨?_, by rw [h]⟩
    cases cs with
    | cons => simpa [hn] using hs
    | nil =>
      intro n hm s hk
      rw [hn, List.nil_append, Option.head?_toList] at hm
      simp [hl n hm] at hk

@[simp]
theorem links_pass (ns : List Node) :
    Node.links (pass ns).kept ++ Node.links (pass ns).dropped = Node.links ns := by
  obtain ⟨cs, last, rfl, _, _, ⟨_, e⟩ | ⟨n, ms, s, rfl, _, e⟩⟩ := pass_cases ns
  all_goals rw [e]; simp

@[simp]
theorem map_id_pass (ns : List Node) :
    (pass ns).kept.map Node.id ++ (pass ns).dropped.map Node.id = ns.map Node.id := by
  obtain ⟨cs, last, rfl, _, _, ⟨_, e⟩ | ⟨n, ms, s, rfl, _, e⟩⟩ := pass_cases ns
  all_goals rw [e]; simp

end Tidy

namespace Node

variable {n c : Node}

theorem firstLeaf_of_childless (h : n.children = []) : n.firstLeaf = n := by
  rw [firstLeaf_eq, h, firstLeafAmong]

theorem firstLeaf_of_head? (h : n.children.head? = some c) : n.firstLeaf = c.firstLeaf := by
  obtain ⟨cs, hc⟩ := List.head?_eq_some_iff.mp h
  rw [firstLeaf_eq, hc, firstLeafAmong]

theorem firstLeaf_mem_preorder (n : Node) : n.firstLeaf ∈ n.preorder :=
  (List.mem_filter.mp (List.mem_of_mem_head? (head?_tips n))).left

theorem textContent_of_childless (h : n.children = []) : n.textContent = n.text := by
  apply String.toList_inj.mp
  rw [textContent_eq, h, List.flatMap_nil, List.append_nil]

theorem textContent_pass (h : n.LeavesEmpty) :
    (n.withChildren (Tidy.pass n.children).kept).textContent = n.textContent ∨
      ∃ s, n.textContent = " " ++ s ∧
        (n.withChildren (Tidy.pass n.children).kept).textContent = "\u00a0" ++ s := by
  obtain ⟨cs, last, hc, hl, _, hp⟩ := Tidy.pass_cases n.children
  have he {m : Node} (hm : m ∈ n.children) (hk : m.kind.isLeaf) : m.children = [] :=
    (leavesEmpty_iff.mp (leavesEmptyAll_iff.mp h.children m hm)).left hk
  have hlast : last.toList.flatMap (·.textContent.toList) = [] := by
    refine List.flatMap_eq_nil_iff.mpr fun m hm => ?_
    have hk := hl m (by simpa using hm)
    rw [textContent_of_childless (he (by simp [hc, hm]) (by rw [hk]; rfl)), text, hk]
    rfl
  have ht : n.textContent.toList = n.text.toList ++ cs.flatMap (·.textContent.toList) := by
    rw [textContent_eq, hc, List.flatMap_append, hlast, List.append_nil]
  obtain ⟨_, e⟩ | ⟨m, ms, s, rfl, hk, e⟩ := hp
  case inl =>
    refine .inl (String.toList_inj.mp ?_)
    rw [e, textContent_eq, ht]
    rfl
  case inr =>
    have hm : m ∈ n.children := by simp [hc]
    have hn : n.text = "" := text_of_not_isText (not_isText_of_not_isLeaf (h.not_isLeaf hm))
    have hcs := he hm (by rw [hk]; rfl)
    refine .inr ⟨s ++ .ofList (ms.flatMap (·.textContent.toList)), ?_, ?_⟩
    all_goals apply String.toList_inj.mp
    case refine_1 =>
      rw [ht, hn, List.flatMap_cons, textContent_of_childless hcs, text, hk]
      simp [Kind.text?]
    case refine_2 =>
      have hcs : (m.withKind (.text ("\u00a0" ++ s))).children = [] := hcs
      have hn (cs : List Node) : (n.withChildren cs).text = "" := hn
      rw [e, textContent_eq, hn, children_withChildren, List.flatMap_cons, textContent_of_childless hcs]
      simp [text, Kind.text?]

end Node

namespace Tree

variable {t t' : Tree} {block : NodeId} {b : Node}

section ReplaceChildren

variable {p : Pass} (wf : t.WellFormed) (hb : t.node? block = some b)

include wf hb

theorem childIds_replaceChildren (wf' : (t.replaceChildren block p).WellFormed)
    (hp : (Node.links p.kept ++ Node.links p.dropped).Perm (Node.links b.children)) (i : NodeId) :
    (t.replaceChildren block p).childIds i =
      if i = block then p.kept.map Node.id else t.childIds i := by
  split
  case isTrue e => rw [e, childIds_of_node? (node?_replaceChildren hb p), Node.children_withChildren]
  case isFalse hi =>
    cases Nat.lt_or_ge i.index t.made with
    | inr hle => rw [wf.childIds_of_le hle, wf'.childIds_of_le hle]
    | inl hlt =>
      let g (n : Node) := n.withChildren p.kept
      let own := (block, b.children.map Node.id)
      have hg : (Node.links [g b] ++ (Node.links p.dropped ++ [own])).Perm
          (Node.links [b] ++ [(block, p.kept.map Node.id)]) := by
        refine List.perm_iff_count.mpr fun l => ?_
        have := hp.count_eq l
        simp [g, own, id_of_node? hb, List.count_cons] at this ⊢
        omega
      have h := Node.links_substituteAll_modify (g := g) t.roots wf.nodup (mem_of_node? hb)
        (fun _ => rfl) hg
      rw [id_of_node? hb, ← List.append_assoc, ← Node.links_append] at h
      have hm := (wf.mem_links_iff hlt _).mpr (rfl : t.childIds i = _)
      refine (wf'.mem_links_iff hlt _).mp ?_
      have hm := h.symm.subset (List.mem_append_left _ hm)
      exact (List.mem_append.mp hm).resolve_right (by simp [own, hi])

theorem map_replaceChildren_perm {g : Node → β} {out fresh : List β}
    (hg : ∀ n cs, g (n.withChildren cs) = g n)
    (hp : ((Node.preorderAll (p.kept ++ p.dropped)).map g ++ out).Perm
      ((Node.preorderAll b.children).map g ++ fresh)) :
    ((Node.preorderAll (t.replaceChildren block p).roots).map g ++ out).Perm
      ((Node.preorderAll t.roots).map g ++ fresh) := by
  have hp : ((Node.preorderAll [b.withChildren p.kept]).map g ++
      ((Node.preorderAll p.dropped).map g ++ out)).Perm (b.preorder.map g ++ fresh) := by
    simpa [Node.preorderAll, Node.preorder_eq, hg] using hp
  have h := Node.map_substituteAll_perm (f := fun n => [n.withChildren p.kept]) hg t.roots wf.nodup
    (mem_of_node? hb) hp
  rw [id_of_node? hb, ← List.append_assoc, ← List.map_append, ← Node.preorderAll_append] at h
  exact h

end ReplaceChildren

theorem WellFormed.parent?_of_childIds {gone : Option NodeId} (wf : t.WellFormed)
    (wf' : t'.WellFormed) (hb : t'.childIds block ++ gone.toList = t.childIds block)
    (h : ∀ i ≠ block, t'.childIds i = t.childIds i) (i : NodeId) :
    t'.parent? i = if gone = some i then none else t.parent? i := by
  split
  case isTrue ho =>
    have hp : t.parent? i = some block := (wf.parent?_iff i block).mpr (by simp [← hb, ho])
    refine Option.eq_none_iff_forall_ne_some.mpr fun q hq => ?_
    have hm := (wf'.parent?_iff i q).mp hq
    by_cases e : q = block
    case pos =>
      have hd := wf.linked.once block
      rw [← hb, List.nodup_append] at hd
      exact hd.right.right i (e ▸ hm) i (by simp [ho]) rfl
    case neg =>
      have := (wf.parent?_iff i q).mpr (h q e ▸ hm)
      exact e (Option.some.inj (this.symm.trans hp))
  case isFalse ho =>
    refine Option.ext fun q => ?_
    rw [wf'.parent?_iff, wf.parent?_iff]
    by_cases e : q = block
    case pos => simp [e, ← hb, ho]
    case neg => rw [h q e]

-- A block after it was tidied. A last break may be gone, and a space at the front may be replaced.
structure Tidied (t t' : Tree) (block : NodeId) (gone : Option NodeId) : Prop where
  wf : t'.WellFormed
  made : t'.made = t.made
  dangles : gone.isSome → Tidy.Dangles (t.children block)
  children : t'.childIds block ++ gone.toList = t.childIds block
  childIds : ∀ i ≠ block, t'.childIds i = t.childIds i
  parent : ∀ i, t'.parent? i = if gone = some i then none else t.parent? i
  kind : ∀ i, t'.kind? i = t.kind? i ∨ (t.childIds block).head? = some i ∧
    ∃ s, t.kind? i = some (.text (" " ++ s)) ∧ t'.kind? i = some (.text ("\u00a0" ++ s))
  text : t'.textContent block = t.textContent block ∨
    ∃ s, t.textContent block = " " ++ s ∧ t'.textContent block = "\u00a0" ++ s

-- The first leaf of a block is a text outside embeds that begins with a space.
def OpensWithSpace (t : Tree) (block : NodeId) : Prop :=
  ∃ b s, t.node? block = some b ∧ b.firstLeaf.kind = .text (" " ++ s) ∧
    t.embedBelow? block b.firstLeaf.id = none

theorem opensWithSpace_iff (hb : t.node? block = some b) : t.OpensWithSpace block ↔
    (∃ s, b.firstLeaf.kind = .text (" " ++ s)) ∧ t.embedBelow? block b.firstLeaf.id = none := by
  simp [OpensWithSpace, hb]

namespace WellFormed

variable (wf : t.WellFormed) (hb : t.node? block = some b)

include wf hb

theorem tidy_eq : (t.tidy block).2 = t.replaceChildren block (Tidy.pass b.children) := by
  rw [tidy, children_of_node? hb]
  split
  case isTrue => rfl
  case isFalse h =>
    obtain ⟨hd, hk⟩ : (Tidy.dropLastBreak b.children).dropped = [] ∧
        Tidy.guardFirst (Tidy.dropLastBreak b.children).kept = (Tidy.dropLastBreak b.children).kept := by
      simpa [Pass.isChange] using h
    have hc := Tidy.kept_append_dropped b.children
    rw [hd, List.append_nil] at hc
    have hp : Tidy.pass b.children = ⟨b.children, []⟩ := congrArg₂ Pass.mk (hk.trans hc) hd
    rw [hp, wf.replaceChildren_self hb]

theorem replaceChildren_pass :
    (t.replaceChildren block (Tidy.pass b.children)).WellFormed := by
  rw [← wf.tidy_eq hb]
  exact (wf.conserves_tidy (wf.index_lt hb (id_of_node? hb ▸ b.id_mem_ids))).wf wf

theorem kind?_pass (i : NodeId) : let t' := t.replaceChildren block (Tidy.pass b.children)
    t'.kind? i = t.kind? i ∨ (t.childIds block).head? = some i ∧
      ∃ s, t.kind? i = some (.text (" " ++ s)) ∧ t'.kind? i = some (.text ("\u00a0" ++ s)) := by
  have wf' := wf.replaceChildren_pass hb
  have hb' := node?_replaceChildren hb (Tidy.pass b.children)
  let g (n : Node) := (n.id, n.kind)
  obtain ⟨cs, last, hc, _, _, ⟨_, e⟩ | ⟨n, ms, s, rfl, hk, e⟩⟩ := Tidy.pass_cases b.children
  case inl =>
    have hp : ((Node.preorderAll (cs ++ last.toList)).map g ++ []).Perm
        ((Node.preorderAll b.children).map g ++ []) := .of_eq (by rw [hc])
    rw [e] at wf' ⊢
    have h := map_replaceChildren_perm (p := ⟨cs, last.toList⟩) wf hb (fun _ _ => rfl) hp
    exact .inl (wf.kind?_of_perm_append wf' h List.not_mem_nil List.not_mem_nil)
  case inr =>
    let n' := n.withKind (.text ("\u00a0" ++ s))
    have hp : ((Node.preorderAll (n' :: ms ++ last.toList)).map g ++ [g n]).Perm
        ((Node.preorderAll b.children).map g ++ [g n']) := by
      refine List.perm_iff_count.mpr fun x => ?_
      simp [hc, Node.preorderAll, Node.preorder_eq, n', g, List.count_cons]
      omega
    rw [e] at wf' hb' ⊢
    by_cases hi : i = n.id
    case neg =>
      have h := map_replaceChildren_perm (p := ⟨n' :: ms, last.toList⟩) wf hb (fun _ _ => rfl) hp
      exact .inl (wf.kind?_of_perm_append wf' h (by simpa [g] using hi) (by simpa [g, n'] using hi))
    case pos =>
      have hm : n ∈ b.preorder := Node.mem_preorder_of_child (by simp [hc]) n.mem_preorder_self
      have hm' : n' ∈ (b.withChildren (n' :: ms)).preorder :=
        Node.mem_preorder_of_child (.head _) n'.mem_preorder_self
      have h := wf.node?_of_mem_preorder hb hm
      have h' : _ = some n' := wf'.node?_of_mem_preorder hb' hm'
      rw [hi]
      refine .inr ⟨by simp [childIds_of_node? hb, hc], s, ?_, ?_⟩
      · rw [kind?, h, Option.map_some, hk]
      · exact congrArg (Option.map Node.kind) h'

theorem tidied_pass {last : Option Node} (he : b.LeavesEmpty)
    (hd : last.isSome → Tidy.Dangles b.children)
    (e : (Tidy.pass b.children).dropped = last.toList) :
    t.Tidied (t.replaceChildren block (Tidy.pass b.children)) block (last.map Node.id) := by
  have wf' := wf.replaceChildren_pass hb
  have hb' := node?_replaceChildren hb (Tidy.pass b.children)
  have hi := childIds_replaceChildren wf hb wf' (.of_eq (Tidy.links_pass b.children))
  have hchildren : (t.replaceChildren block (Tidy.pass b.children)).childIds block ++
      (last.map Node.id).toList = t.childIds block := by
    rw [hi, if_pos rfl, childIds_of_node? hb, ← Tidy.map_id_pass b.children, e]
    cases last <;> rfl
  have hchildIds (i : NodeId) (hne : i ≠ block) :
      (t.replaceChildren block (Tidy.pass b.children)).childIds i = t.childIds i := by
    rw [hi, if_neg hne]
  exact {
    wf := wf'
    made := rfl
    dangles := by simpa [children_of_node? hb] using hd
    children := hchildren
    childIds := hchildIds
    parent := wf.parent?_of_childIds wf' hchildren hchildIds
    kind := wf.kind?_pass hb
    text := by
      simp only [textContent, hb, hb', Option.map_some, Option.getD_some]
      exact Node.textContent_pass he }

theorem exists_tidied (he : b.LeavesEmpty) : ∃ gone, t.Tidied (t.tidy block).2 block gone := by
  obtain ⟨cs, last, _, _, hd, h⟩ := Tidy.pass_cases b.children
  have e : (Tidy.pass b.children).dropped = last.toList := by
    obtain ⟨_, e⟩ | ⟨_, _, _, _, _, e⟩ := h <;> rw [e]
  exact ⟨_, wf.tidy_eq hb ▸ wf.tidied_pass hb he hd e⟩

theorem tidy_tidy : (t.tidy block).2.tidy block = (false, (t.tidy block).2) := by
  have hb' := node?_replaceChildren hb (Tidy.pass b.children)
  have hd := Tidy.dropLastBreak_of_not_dangles (Tidy.not_dangles_kept b.children)
  have hg := Tidy.guardFirst_guardFirst (Tidy.dropLastBreak b.children).kept
  rw [wf.tidy_eq hb]
  conv => lhs; unfold tidy
  rw [children_of_node? hb']
  simp only [Node.children_withChildren, Tidy.pass, hd, Pass.unchanged, hg]
  simp [Pass.isChange]

theorem lineage_pass {l : Node} (he : b.LeavesEmpty) (hc : b.children = cs ++ [l])
    (hl : l.kind = .lineBreak false) (hd : Tidy.Dangles b.children)
    (hs : ∀ n ∈ b.children.head?, ∀ s, n.kind ≠ .text (" " ++ s))
    (e : Tidy.pass b.children = ⟨cs, [l]⟩) (hx : x ∈ b.preorder) (hne : x ≠ l) :
    (t.replaceChildren block (Tidy.pass b.children)).lineage x.id = t.lineage x.id := by
  have hlb : l ∈ b.preorder := Node.mem_preorder_of_child (by simp [hc]) l.mem_preorder_self
  have hlt := wf.node?_of_mem_preorder hb hlb
  have hxt := wf.node?_of_mem_preorder hb hx
  have e' : (Tidy.pass b.children).dropped = (some l).toList := by rw [e]; rfl
  have ht := wf.tidied_pass hb he (fun _ => hd) e'
  have hk (i : NodeId) : (t.replaceChildren block (Tidy.pass b.children)).kind? i = t.kind? i := by
    refine (ht.kind i).resolve_right fun ⟨hi, s, hk, _⟩ => ?_
    rw [childIds_of_node? hb, List.head?_map, Option.map_eq_some_iff] at hi
    obtain ⟨n, hn, rfl⟩ := hi
    have hm : n ∈ b.preorder :=
      Node.mem_preorder_of_child (List.mem_of_mem_head? hn) n.mem_preorder_self
    rw [kind?, wf.node?_of_mem_preorder hb hm] at hk
    exact hs n hn s (Option.some.inj hk)
  have hp (i : NodeId) (hi : i ≠ l.id) :
      (t.replaceChildren block (Tidy.pass b.children)).parent? i = t.parent? i := by
    rw [ht.parent, if_neg (by simpa using Ne.symm hi)]
  refine wf.lineage_of_parents ht.wf hk hp (wf.index_lt hxt x.id_mem_ids) ?_
  have hcs : l.children = [] := he l hlb (by rw [hl]; rfl)
  rw [Bool.eq_false_iff, ne_eq, wf.contains_iff hlt hxt, Node.preorder_eq, hcs]
  simpa [Node.preorderAll] using hne

omit wf hb in
theorem childless_of_isLeaf {n : Node} (he : b.LeavesEmpty) (hn : n ∈ b.children)
    (hk : n.kind.isLeaf) : n.children = [] :=
  Node.leavesEmptyAll_iff.mp he.children n hn n n.mem_preorder_self hk

theorem opensWithSpace_pass {last : Option Node} (he : b.LeavesEmpty)
    (hs : ∀ n ∈ b.children.head?, ∀ s, n.kind ≠ .text (" " ++ s))
    (hc : b.children = cs ++ last.toList) (hl : ∀ n ∈ last, n.kind = .lineBreak false)
    (hd : last.isSome → Tidy.Dangles b.children) (e : Tidy.pass b.children = ⟨cs, last.toList⟩) :
    (t.replaceChildren block (Tidy.pass b.children)).OpensWithSpace block ↔
      t.OpensWithSpace block := by
  match last, cs with
  | none, cs =>
    rw [Option.toList_none, List.append_nil] at hc
    rw [e, Option.toList_none, ← hc, wf.replaceChildren_self hb]
  | some l, [] =>
    have hk : l.kind = .lineBreak false := hl l rfl
    have hm : l ∈ b.children := by simp [hc]
    have hf : b.firstLeaf = l := by
      rw [Node.firstLeaf_of_head? (by rw [hc]; rfl),
        Node.firstLeaf_of_childless (childless_of_isLeaf he hm (by rw [hk]; rfl))]
    rw [opensWithSpace_iff (node?_replaceChildren hb _), opensWithSpace_iff hb, hf, hk, e,
      Node.firstLeaf_of_childless rfl, Node.kind_withChildren]
    have hb : b.kind.isLeaf = false := he.not_isLeaf hm
    constructor
    case mp =>
      intro ⟨⟨s, h⟩, _⟩
      simp [h, Kind.isLeaf, Kind.isText] at hb
    case mpr => simp
  | some l, n :: ms =>
    have hf : (b.withChildren (Tidy.pass b.children).kept).firstLeaf = b.firstLeaf := by
      have hn : b.children.head? = some n := by rw [hc]; rfl
      rw [e, Node.firstLeaf_of_head? rfl, Node.firstLeaf_of_head? hn]
    rw [opensWithSpace_iff (node?_replaceChildren hb _), opensWithSpace_iff hb, hf]
    refine and_congr_right fun ⟨s, h⟩ => ?_
    have hne : b.firstLeaf ≠ l := fun e => by simp [e, hl l rfl] at h
    rw [embedBelow?_eq, embedBelow?_eq, wf.lineage_pass hb he hc (hl l rfl) (hd rfl) hs e
      b.firstLeaf_mem_preorder hne]

theorem opensWithSpace_tidy (he : b.LeavesEmpty) : (t.tidy block).2.OpensWithSpace block ↔
    t.OpensWithSpace block ∧ ∀ n ∈ b.children.head?, n.isText = false := by
  rw [wf.tidy_eq hb]
  obtain ⟨cs, last, hc, hl, hd, ⟨hs, e⟩ | ⟨n, ms, s, rfl, hk, e⟩⟩ := Tidy.pass_cases b.children
  case inl =>
    rw [wf.opensWithSpace_pass hb he hs hc hl hd e, opensWithSpace_iff hb]
    refine (and_iff_left_of_imp fun ⟨⟨s, h⟩, _⟩ n hn => ?_).symm
    by_contra ht
    have hcs := childless_of_isLeaf he (List.mem_of_mem_head? hn)
      (Bool.or_eq_true_iff.mpr (.inl (by simpa [Node.isText] using ht)))
    rw [Node.firstLeaf_of_head? hn, Node.firstLeaf_of_childless hcs] at h
    exact hs n hn s h
  case inr =>
    have hcs : n.children = [] := childless_of_isLeaf he (by simp [hc]) (by rw [hk]; rfl)
    have hcs : (n.withKind (.text ("\u00a0" ++ s))).children = [] := hcs
    rw [opensWithSpace_iff (node?_replaceChildren hb _), e, Node.firstLeaf_of_head? rfl,
      Node.firstLeaf_of_childless hcs]
    constructor
    case mp =>
      intro ⟨⟨s', h⟩, _⟩
      have := congrArg String.toList (Kind.text.inj h)
      simp at this
    case mpr =>
      intro ⟨_, h⟩
      have := h n (by simp [hc])
      simp [Node.isText, hk, Kind.isText] at this

-- One tidying is enough: no break dangles any more, and the space in front is replaced. The space stays
-- where the first text is deeper in the block, which only its own children are searched for.
theorem tidied_tidy (he : b.LeavesEmpty) :
    (∃ gone, t.Tidied (t.tidy block).2 block gone) ∧
    ¬Tidy.Dangles ((t.tidy block).2.children block) ∧
    ((t.tidy block).2.OpensWithSpace block ↔
      t.OpensWithSpace block ∧ ∀ n ∈ b.children.head?, n.isText = false) ∧
    (t.tidy block).2.tidy block = (false, (t.tidy block).2) ∧
    ((t.tidy block).1 = false ↔ (t.tidy block).2 = t) := by
  have hb' := node?_replaceChildren hb (Tidy.pass b.children)
  refine ⟨wf.exists_tidied hb he, ?_, wf.opensWithSpace_tidy hb he, wf.tidy_tidy hb, ?flag⟩
  · rw [wf.tidy_eq hb, children_of_node? hb']
    exact Tidy.not_dangles_kept b.children
  case flag =>
    constructor
    case mp =>
      simp only [tidy]
      split <;> simp
    case mpr =>
      intro h
      have := wf.tidy_tidy hb
      rw [h] at this
      rw [this]

end WellFormed

-- Two blocks with a space in front and a break at the end. One of the spaces is in a wrapper.
def drafty : Tree where
  roots := [.mk ⟨0⟩ (.element "div") [
    .mk ⟨1⟩ (.block "div" 0 true) [
      .mk ⟨2⟩ (.wrapper (.single "b")) [.mk ⟨3⟩ (.text " a") []],
      .mk ⟨4⟩ (.lineBreak false) []],
    .mk ⟨5⟩ (.block "div" 1 true) [.mk ⟨6⟩ (.text " b") [], .mk ⟨7⟩ (.lineBreak false) []]]]
  made := 8

theorem tidied_tidy_drafty :
    drafty.WellFormed ∧ drafty.LeavesEmpty ∧
      drafty.OpensWithSpace ⟨1⟩ ∧ (drafty.tidy ⟨1⟩).2.OpensWithSpace ⟨1⟩ ∧
      drafty.OpensWithSpace ⟨5⟩ ∧ ¬(drafty.tidy ⟨5⟩).2.OpensWithSpace ⟨5⟩ ∧
      (drafty.tidy ⟨5⟩).2.childIds ⟨5⟩ = [⟨6⟩] := by
  have wf : drafty.WellFormed := by decide
  have he : drafty.LeavesEmpty := by decide
  have hw : drafty.OpensWithSpace ⟨1⟩ := ⟨_, "a", rfl, by decide, by decide⟩
  have ht : drafty.OpensWithSpace ⟨5⟩ := ⟨_, "b", rfl, by decide, by decide⟩
  have hb : drafty.node? ⟨1⟩ = some _ := rfl
  have hb' : drafty.node? ⟨5⟩ = some _ := rfl
  have h := (wf.tidied_tidy hb (he.node hb)).right.right.left
  have h' := (wf.tidied_tidy hb' (he.node hb')).right.right.left
  refine ⟨wf, he, hw, h.mpr ⟨hw, by decide⟩, ht, fun ho => ?_, by decide⟩
  exact absurd (h'.mp ho).right (by decide)

end Tree

end RichText
