import RichText.Document
import RichText.Proofs.Edited

namespace RichText

theorem NodeId.perm_given_succ {is ids : List NodeId} (hle : a ≤ b)
    (h : is.Perm (ids ++ given a b)) : (⟨b⟩ :: is).Perm (ids ++ given a (b + 1)) := by
  rw [← given_append hle (Nat.le_succ b), given_one, ← List.append_assoc]
  exact (h.cons _).trans (List.perm_append_singleton _ _).symm

theorem Node.idsAll_reverse (ns : List Node) : (idsAll ns.reverse).Perm (idsAll ns) := by
  rw [idsAll, idsAll, preorderAll_eq_flatMap, preorderAll_eq_flatMap]
  exact ((List.reverse_perm ns).flatMap_right _).map _

theorem Node.leavesEmptyAll_reverse {ns : List Node} :
    LeavesEmptyAll ns.reverse ↔ LeavesEmptyAll ns := by
  simp [leavesEmptyAll_iff]

namespace Markup

open Node (LeavesEmpty LeavesEmptyAll idsAll)

theorem Traits.isLeaf_kind {t : Traits} {tag : String} (h : isVoid tag = false) :
    (t.kind tag).isLeaf = false := by
  have hb : tag ≠ "br" := by
    intro e
    simp [e, isVoid, voidTags] at h
  rw [kind, if_neg hb]
  split <;> (try split) <;> rfl

namespace OpenElement

def ids (e : OpenElement) : List NodeId :=
  e.id :: idsAll e.before

end OpenElement

namespace Builder

variable {b : Builder} {before : List Node} {first : Nat}

theorem text_cases (b : Builder) (content : List Char) :
    content = [] ∧ b.text content = b ∨
      (∃ n ns, b.current = n :: ns ∧ n.isText ∧ content ≠ [] ∧ b.text content =
        ⟨n.appendText (String.ofList content) :: ns, b.opened, b.next⟩) ∨
      (∀ n ∈ b.current.head?, n.isText = false) ∧ content ≠ [] ∧
        b.text content = b.leaf (.text (String.ofList content)) := by
  rw [text]
  split
  case isTrue h => exact .inl ⟨by simpa using h, rfl⟩
  case isFalse h =>
    have hne : content ≠ [] := by simpa using h
    split
    case h_2 hc => exact .inr <| .inr ⟨by simp [hc], hne, rfl⟩
    case h_1 n ns hc =>
      split
      case isTrue ht => exact .inr <| .inl ⟨n, ns, hc, ht, hne, rfl⟩
      case isFalse ht => exact .inr <| .inr ⟨by simpa [hc] using ht, hne, rfl⟩

theorem opened_text (content : List Char) : (b.text content).opened = b.opened := by
  obtain ⟨-, e⟩ | ⟨n, ns, -, -, -, e⟩ | ⟨-, -, e⟩ := b.text_cases content <;> rw [e]
  rfl

theorem stop_of_not_mem {tag : String} (h : tag ∉ b.opened.map (·.tag)) : b.stop tag = b := by
  have hd : b.opened.dropWhile (·.tag ≠ tag) = [] :=
    List.dropWhile_eq_nil_iff.mpr fun e he =>
      decide_eq_true fun e' => h (e' ▸ List.mem_map_of_mem he)
  rw [stop]
  simp only [hd]

theorem stop_of_opened {e : OpenElement} {inner outer : List OpenElement}
    (h : b.opened = inner ++ e :: outer) (hi : e.tag ∉ inner.map (·.tag)) :
    b.stop e.tag = ⟨closeInnermost b.current (inner ++ [e]), outer, b.next⟩ := by
  have hi : ∀ x ∈ inner, decide (x.tag ≠ e.tag) = true := fun x hx =>
    decide_eq_true fun e' => hi (e' ▸ List.mem_map_of_mem hx)
  rw [stop]
  simp only [h, List.takeWhile_append_of_pos hi, List.dropWhile_append_of_pos hi]
  simp

theorem exists_opened {tag : String} (h : tag ∈ b.opened.map (·.tag)) :
    ∃ inner e outer, b.opened = inner ++ e :: outer ∧ e.tag = tag ∧ e.tag ∉ inner.map (·.tag) := by
  obtain ⟨as, bs, hab, hn⟩ := List.eq_append_cons_of_mem h
  obtain ⟨inner, rest, ho, rfl, hr⟩ := List.map_eq_append_iff.mp hab
  obtain ⟨e, outer, rfl, rfl, -⟩ := List.map_eq_cons_iff.mp hr
  exact ⟨inner, e, outer, ho, rfl, hn⟩

theorem stop_cases (b : Builder) (tag : String) :
    tag ∉ b.opened.map (·.tag) ∧ b.stop tag = b ∨
      ∃ inner e outer, b.opened = inner ++ e :: outer ∧ e.tag = tag ∧ e.tag ∉ inner.map (·.tag) ∧
        b.stop tag = ⟨closeInnermost b.current (inner ++ [e]), outer, b.next⟩ := by
  by_cases h : tag ∈ b.opened.map (·.tag)
  case neg => exact .inl ⟨h, stop_of_not_mem h⟩
  case pos =>
    obtain ⟨inner, e, outer, ho, rfl, hi⟩ := exists_opened h
    exact .inr ⟨inner, e, outer, ho, rfl, hi, stop_of_opened ho hi⟩

def ids (b : Builder) : List NodeId :=
  idsAll b.current ++ b.opened.flatMap OpenElement.ids

-- After some siblings, nodes are made one by one. Nothing comes beneath texts and breaks.
structure Sound (before : List Node) (first : Nat) (b : Builder) : Prop where
  le : first ≤ b.next
  perm : b.ids.Perm (idsAll before ++ NodeId.given first b.next)
  current : LeavesEmptyAll b.current
  before : ∀ e ∈ b.opened, LeavesEmptyAll e.before
  kind : ∀ e ∈ b.opened, e.kind.isLeaf = false

theorem idsAll_closeInnermost (current : List Node) (es : List OpenElement) :
    (idsAll (closeInnermost current es)).Perm (idsAll current ++ es.flatMap OpenElement.ids) := by
  induction es generalizing current with
  | nil => simp [closeInnermost]
  | cons e es ih =>
    refine (ih _).trans ?_
    rw [Node.idsAll_cons, Node.ids_mk, List.flatMap_cons, OpenElement.ids, ← List.append_assoc]
    refine List.Perm.append_right _ ?_
    rw [List.cons_append]
    refine List.Perm.trans ?_ List.perm_middle.symm
    exact ((Node.idsAll_reverse current).append_right _).cons _

theorem leavesEmptyAll_closeInnermost {current : List Node} (es : List OpenElement)
    (h : LeavesEmptyAll current)
    (hb : ∀ e ∈ es, LeavesEmptyAll e.before) (hk : ∀ e ∈ es, e.kind.isLeaf = false) :
    LeavesEmptyAll (closeInnermost current es) := by
  induction es generalizing current with
  | nil => exact h
  | cons e es ih =>
    rw [List.forall_mem_cons] at hb hk
    refine ih ?_ hb.right hk.right
    rw [Node.leavesEmptyAll_cons, Node.leavesEmpty_mk, Node.leavesEmptyAll_reverse]
    exact ⟨⟨by simp [hk.left], h⟩, hb.left⟩

namespace Sound

variable (h : Sound before first b)

include h

theorem leaf (kind : Kind) : Sound before first (b.leaf kind) where
  le := Nat.le_succ_of_le h.le
  perm := by simpa [Builder.leaf, ids, Node.idsAll_cons, Node.ids_mk] using NodeId.perm_given_succ h.le h.perm
  current := by
    simp only [Builder.leaf, Node.leavesEmptyAll_cons, Node.leavesEmpty_mk]
    exact ⟨⟨fun _ => trivial, Node.leavesEmptyAll_nil⟩, h.current⟩
  before := h.before
  kind := h.kind

theorem text (content : List Char) : Sound before first (b.text content) := by
  obtain ⟨-, e⟩ | ⟨n, ns, hc, -, -, e⟩ | ⟨-, -, e⟩ := b.text_cases content <;> rw [e]
  case inl => exact h
  case inr.inl =>
    have hp := h.perm
    have hl := h.current
    rw [hc, Node.leavesEmptyAll_cons] at hl
    rw [Builder.ids, hc] at hp
    exact {
      le := h.le
      perm := by simpa [Builder.ids, Node.idsAll_cons, Node.appendText] using hp
      current := by simpa [Node.leavesEmptyAll_cons] using hl
      before := h.before
      kind := h.kind }
  case inr.inr => exact h.leaf _

theorem start (tag : String) (attributes : List Attribute) (isClosed : Bool) :
    Sound before first (b.start tag attributes isClosed) := by
  rw [Builder.start]
  split
  case isTrue => exact h.leaf _
  case isFalse hv =>
    exact {
      le := Nat.le_succ_of_le h.le
      perm := by simpa [ids, OpenElement.ids] using NodeId.perm_given_succ h.le h.perm
      current := Node.leavesEmptyAll_nil
      before := List.forall_mem_cons.mpr ⟨h.current, h.before⟩
      kind := List.forall_mem_cons.mpr ⟨Traits.isLeaf_kind (by simp_all), h.kind⟩ }

theorem stop (tag : String) : Sound before first (b.stop tag) := by
  obtain ⟨-, e⟩ | ⟨inner, e, outer, ho, -, -, hs⟩ := b.stop_cases tag
  case inl => rwa [e]
  case inr =>
    rw [List.append_cons] at ho
    have hp := h.perm
    have hb := h.before
    have hk := h.kind
    rw [Builder.ids, ho, List.flatMap_append, ← List.append_assoc] at hp
    rw [ho, List.forall_mem_append] at hb hk
    rw [hs]
    exact {
      le := h.le
      perm := ((idsAll_closeInnermost _ _).append_right _).trans hp
      current := leavesEmptyAll_closeInnermost _ h.current hb.left hk.left
      before := hb.right
      kind := hk.right }

theorem add (token : Token) : Sound before first (b.add token) := by
  cases token with
  | text content => exact h.text content
  | start name attributes isClosed => exact h.start _ attributes isClosed
  | stop name => exact h.stop _

theorem foldl (tokens : List Token) : Sound before first (tokens.foldl Builder.add b) := by
  induction tokens generalizing b with
  | nil => exact h
  | cons token tokens ih => exact ih (h.add token)

theorem nodes : (idsAll b.nodes).Perm (idsAll before ++ NodeId.given first b.next) ∧
    LeavesEmptyAll b.nodes := by
  rw [Builder.nodes, Node.leavesEmptyAll_reverse]
  exact ⟨(Node.idsAll_reverse _).trans ((idsAll_closeInnermost _ _).trans h.perm),
    leavesEmptyAll_closeInnermost _ h.current h.before h.kind⟩

end Sound

end Builder

end Markup

namespace Tree

variable {t : Tree} {parent : NodeId} {n : Node}

theorem sound_parseAfter (cs : List Node) (hl : Node.LeavesEmptyAll cs) (next : Nat)
    (markup : String) : (Markup.parseAfter cs next markup).1.Sound cs next := by
  refine Markup.Builder.Sound.foldl ?_ _
  exact {
    le := Nat.le_refl _
    perm := by simpa [Markup.Builder.ids] using Node.idsAll_reverse cs
    current := Node.leavesEmptyAll_reverse.mpr hl
    before := nofun
    kind := nofun }

theorem rebuilt_parseInto (wf : t.WellFormed) (he : t.LeavesEmpty) (hn : t.node? parent = some n)
    (markup : String) : ∃ cs, t.Rebuilt (t.parseInto parent markup).1 parent cs := by
  let b := (Markup.parseAfter n.children t.made markup).1
  have hs : b.Sound n.children t.made := sound_parseAfter n.children (he.leavesEmptyAll hn) t.made markup
  have ⟨hp, hl⟩ := hs.nodes
  have hr := rebuilt_replaceChildren (p := ⟨b.nodes, []⟩) wf hn hs.le (by simpa using hp)
    fun _ => ⟨hl, nofun⟩
  have e : (t.parseInto parent markup).1 =
      { t.replaceChildren parent ⟨b.nodes, []⟩ with made := b.next } := by
    simp [parseInto, replaceChildren, children_of_node? hn, b]
  exact ⟨_, e ▸ hr⟩

end Tree

namespace Document

theorem wellFormed_of_parse {d : Document} (h : parse markup = .ok d) :
    d.tree.WellFormed ∧ d.tree.LeavesEmpty ∧
      ∃ r, d.tree.node? d.root = some r ∧ r.kind = .element "div" := by
  have wf : empty.tree.WellFormed := by decide
  have he : empty.tree.LeavesEmpty := by decide
  have hn : empty.tree.node? empty.root = some (.mk ⟨0⟩ (.element "div") []) := rfl
  have ⟨cs, hr⟩ := Tree.rebuilt_parseInto wf he hn markup
  rw [parse] at h
  split at h
  case h_2 => contradiction
  case h_1 tree e =>
    cases h
    rw [e] at hr
    exact ⟨hr.wf, hr.leavesEmpty wf hn he rfl, _, hr.node? hn, rfl⟩

end Document

end RichText
