import RichText.Proofs.Canonical
import RichText.Proofs.Parsed

namespace RichText

namespace Kind

-- Texts, breaks, and elements that are written without an end tag have no content.
def isBarren (k : Kind) : Bool :=
  k.isLeaf || Markup.isVoid k.asElement.1

end Kind

namespace Canonical

theorem merged_reverse {ns : List Node} : Merged ns.reverse ↔ Merged ns := by
  have hc : ns.reverse.IsChain (fun n m => ¬(n.isText ∧ m.isText)) ↔
      ns.IsChain fun n m => ¬(n.isText ∧ m.isText) := by
    simp only [List.isChain_reverse, and_comm]
  exact ⟨fun h => ⟨by simpa using h.nonempty, hc.mp h.apart⟩,
    fun h => ⟨by simpa using h.nonempty, hc.mpr h.apart⟩⟩

theorem merged_nil : Merged [] where
  nonempty := nofun
  apart := .nil

theorem Merged.tail {n : Node} {ns : List Node} (h : Merged (n :: ns)) : Merged ns where
  nonempty m hm := h.nonempty m (.tail _ hm)
  apart := h.apart.tail

theorem Merged.cons {n : Node} {ns : List Node} (h : Merged ns) (hn : n.isEmptyText = false)
    (ha : ∀ m ∈ ns.head?, ¬(n.isText ∧ m.isText)) : Merged (n :: ns) where
  nonempty := List.forall_mem_cons.mpr ⟨hn, h.nonempty⟩
  apart := List.isChain_cons.mpr ⟨ha, h.apart⟩

end Canonical

namespace Node

open Canonical (Merged)

-- Texts are run together at every depth, and nothing lies beneath what has no content.
structure Regular (n : Node) : Prop where
  merged : ∀ m ∈ n.preorder, Merged m.children
  barren : ∀ m ∈ n.preorder, m.kind.isBarren → m.children = []

structure RegularAll (ns : List Node) : Prop where
  merged : Merged ns
  regular : ∀ n ∈ ns, n.Regular

instance (n : Node) : Decidable n.Regular :=
  decidable_of_iff ((∀ m ∈ n.preorder, Merged m.children) ∧
    ∀ m ∈ n.preorder, m.kind.isBarren → m.children = [])
    ⟨fun h => ⟨h.left, h.right⟩, fun h => ⟨h.merged, h.barren⟩⟩

instance (ns : List Node) : Decidable (RegularAll ns) :=
  decidable_of_iff (Merged ns ∧ ∀ n ∈ ns, n.Regular)
    ⟨fun h => ⟨h.left, h.right⟩, fun h => ⟨h.merged, h.regular⟩⟩

theorem regular_iff {n : Node} :
    n.Regular ↔ (n.kind.isBarren → n.children = []) ∧ RegularAll n.children := by
  have hm {p : Node → Prop} : (∀ m ∈ n.preorder, p m) ↔
      p n ∧ ∀ c ∈ n.children, ∀ m ∈ c.preorder, p m := by
    simp only [preorder_eq n, preorderAll_eq_flatMap, List.forall_mem_cons, List.mem_flatMap]
    exact and_congr_right fun _ => ⟨fun h c hc m hm => h m ⟨c, hc, hm⟩, fun h m ⟨c, hc, hm⟩ => h c hc m hm⟩
  constructor
  case mp =>
    intro ⟨merged, barren⟩
    rw [hm] at merged barren
    exact ⟨barren.left, merged.left, fun c hc => ⟨merged.right c hc, barren.right c hc⟩⟩
  case mpr =>
    intro ⟨barren, merged, regular⟩
    exact ⟨hm.mpr ⟨merged, fun c hc => (regular c hc).merged⟩,
      hm.mpr ⟨barren, fun c hc => (regular c hc).barren⟩⟩

theorem regularAll_reverse {ns : List Node} : RegularAll ns.reverse ↔ RegularAll ns :=
  ⟨fun h => ⟨Canonical.merged_reverse.mp h.merged, by simpa using h.regular⟩,
    fun h => ⟨Canonical.merged_reverse.mpr h.merged, by simpa using h.regular⟩⟩

theorem regularAll_nil : RegularAll [] where
  merged := Canonical.merged_nil
  regular := nofun

theorem RegularAll.cons {n : Node} {ns : List Node} (h : RegularAll ns) (hn : n.Regular)
    (he : n.isEmptyText = false) (ha : ∀ m ∈ ns.head?, ¬(n.isText ∧ m.isText)) :
    RegularAll (n :: ns) where
  merged := h.merged.cons he ha
  regular := List.forall_mem_cons.mpr ⟨hn, h.regular⟩

theorem RegularAll.tail {n : Node} {ns : List Node} (h : RegularAll (n :: ns)) : RegularAll ns where
  merged := h.merged.tail
  regular m hm := h.regular m (.tail _ hm)

mutual

theorem mem_preorder_cases (n : Node) (h : m ∈ n.preorder) :
    m = n ∨ ∃ p ∈ n.preorder, m ∈ p.children := by
  have ⟨i, k, cs⟩ := n
  rw [preorder, List.mem_cons] at h
  refine h.imp_right fun h => ?_
  cases mem_preorderAll_cases cs h
  case inl h => exact ⟨_, mem_preorder_self _, h⟩
  case inr h => exact h.imp fun p ⟨hp, h⟩ => ⟨.tail _ hp, h⟩

theorem mem_preorderAll_cases (ns : List Node) (h : m ∈ preorderAll ns) :
    m ∈ ns ∨ ∃ p ∈ preorderAll ns, m ∈ p.children := by
  match ns with
  | [] => simp [preorderAll] at h
  | n :: ns =>
    cases List.mem_append.mp h
    case inl h =>
      obtain rfl | ⟨p, hp, h⟩ := mem_preorder_cases n h
      · exact .inl (.head _)
      · exact .inr ⟨p, List.mem_append_left _ hp, h⟩
    case inr h =>
      obtain h | ⟨p, hp, h⟩ := mem_preorderAll_cases ns h
      · exact .inl (.tail _ h)
      · exact .inr ⟨p, List.mem_append_right _ hp, h⟩

end

theorem regular_leaf (i : NodeId) (k : Kind) : (mk i k []).Regular :=
  regular_iff.mpr ⟨fun _ => rfl, regularAll_nil⟩

end Node

namespace Markup

open Node (RegularAll idsAll)

namespace Traits

variable {t : Traits} {tag : String}

theorem tag_kind (h : isVoid tag = false) : (t.kind tag).asElement.1 = tag := by
  have hb : tag ≠ "br" := by
    intro e
    simp [e, isVoid, voidTags] at h
  rw [kind, if_neg hb]
  split <;> (try split) <;> simp_all [Kind.asElement]

theorem isText_kind : (t.kind tag).isText = false := by
  rw [kind]
  split
  case isTrue => rfl
  case isFalse => split <;> (try split) <;> rfl

theorem isBarren_kind (h : isVoid tag = false) : (t.kind tag).isBarren = false := by
  rw [Kind.isBarren, tag_kind h, h, Bool.or_false]
  exact isLeaf_kind h

end Traits

namespace Builder

variable {b : Builder}

-- The ids in the order of the document when nodes with ids `rest` follow what is open.
def orderBefore (rest : List NodeId) : List OpenElement → List NodeId
  | [] => rest
  | e :: es => orderBefore (idsAll e.before.reverse ++ e.id :: rest) es

theorem orderBefore_append (rest : List NodeId) (es es' : List OpenElement) :
    orderBefore rest (es ++ es') = orderBefore (orderBefore rest es) es' := by
  induction es generalizing rest with
  | nil => rfl
  | cons e es ih => exact ih _

theorem orderBefore_concat (rest : List NodeId) (i : NodeId) (es : List OpenElement) :
    orderBefore (rest ++ [i]) es = orderBefore rest es ++ [i] := by
  induction es generalizing rest with
  | nil => rfl
  | cons e es ih =>
    rw [orderBefore, orderBefore, ← ih]
    simp

def order (b : Builder) : List NodeId :=
  orderBefore (idsAll b.current.reverse) b.opened

theorem idsAll_reverse_closeInnermost (current : List Node) (es : List OpenElement) :
    idsAll (closeInnermost current es).reverse = orderBefore (idsAll current.reverse) es := by
  induction es generalizing current with
  | nil => rfl
  | cons e es ih =>
    rw [closeInnermost, ih, orderBefore]
    simp

structure Extends (b b' : Builder) : Prop where
  le : b.next ≤ b'.next
  order : b'.order = b.order ++ NodeId.given b.next b'.next

namespace Extends

variable {b' b'' : Builder}

theorem of_eq (hn : b'.next = b.next) (ho : b'.order = b.order) : b.Extends b' where
  le := Nat.le_of_eq hn.symm
  order := by simp [ho, hn]

theorem trans (h : b.Extends b') (h' : b'.Extends b'') : b.Extends b'' where
  le := Nat.le_trans h.le h'.le
  order := by rw [h'.order, h.order, List.append_assoc, NodeId.given_append h.le h'.le]

theorem leaf (kind : Kind) : b.Extends (b.leaf kind) where
  le := Nat.le_succ b.next
  order := by simp [Builder.order, Builder.leaf, ← orderBefore_concat]

theorem text (content : List Char) : b.Extends (b.text content) := by
  obtain ⟨-, e⟩ | ⟨n, ns, hc, -, -, e⟩ | ⟨-, -, e⟩ := b.text_cases content <;> rw [e]
  case inl => exact .of_eq rfl rfl
  case inr.inl => exact .of_eq rfl (by simp [Builder.order, hc])
  case inr.inr => exact leaf _

theorem start (tag : String) (attributes : List Attribute) (isClosed : Bool) :
    b.Extends (b.start tag attributes isClosed) := by
  rw [Builder.start]
  split
  case isTrue => exact leaf _
  case isFalse =>
    exact {
      le := Nat.le_succ b.next
      order := by simp [Builder.order, orderBefore, ← orderBefore_concat] }

theorem stop (tag : String) : b.Extends (b.stop tag) := by
  obtain ⟨-, e⟩ | ⟨inner, e, outer, ho, -, -, hs⟩ := b.stop_cases tag
  case inl => exact .of_eq (by rw [e]) (by rw [e])
  case inr =>
    rw [hs]
    refine .of_eq rfl ?_
    rw [List.append_cons] at ho
    rw [Builder.order, idsAll_reverse_closeInnermost, ← orderBefore_append, ← ho]
    rfl

theorem add (b : Builder) (token : Token) : b.Extends (b.add token) := by
  cases token with
  | text content => exact text content
  | start name attributes isClosed => exact start _ attributes isClosed
  | stop name => exact stop _

theorem foldl (b : Builder) (tokens : List Token) : b.Extends (tokens.foldl Builder.add b) := by
  induction tokens generalizing b with
  | nil => exact .of_eq rfl rfl
  | cons token tokens ih => exact (add b token).trans (ih _)

end Extends

theorem idsAll_nodes_parseAfter (before : List Node) (next : Nat) (markup : String) :
    next ≤ (parseAfter before next markup).1.next ∧
      idsAll (parseAfter before next markup).1.nodes =
        idsAll before ++ NodeId.given next (parseAfter before next markup).1.next := by
  have h : Extends ⟨before.reverse, [], next⟩ (parseAfter before next markup).1 := .foldl ..
  refine ⟨h.le, ?_⟩
  rw [nodes, idsAll_reverse_closeInnermost]
  simpa [order, orderBefore] using h.order

theorem regularAll_closeInnermost {current : List Node} {es : List OpenElement}
    (h : RegularAll current) (hb : ∀ e ∈ es, RegularAll e.before)
    (hk : ∀ e ∈ es, e.kind.isBarren = false) : RegularAll (closeInnermost current es) := by
  induction es generalizing current with
  | nil => exact h
  | cons e es ih =>
    rw [List.forall_mem_cons] at hb hk
    have ht : e.kind.isText = false := by
      have := hk.left
      cases hk : e.kind <;> simp_all [Kind.isBarren, Kind.isLeaf, Kind.isText]
    refine ih (hb.left.cons ?_ ?_ ?_) hb.right hk.right
    case refine_1 =>
      exact Node.regular_iff.mpr ⟨by simp [hk.left], Node.regularAll_reverse.mpr h⟩
    case refine_2 => simp [Node.isEmptyText, Node.isText, ht]
    case refine_3 => simp [Node.isText, ht]

structure Regular (b : Builder) : Prop where
  current : RegularAll b.current
  before : ∀ e ∈ b.opened, RegularAll e.before
  kind : ∀ e ∈ b.opened, e.kind.isBarren = false

namespace Regular

variable (h : b.Regular)

include h

theorem leaf {kind : Kind} (he : (Node.mk ⟨b.next⟩ kind []).isEmptyText = false)
    (ha : ∀ m ∈ b.current.head?, ¬(kind.isText ∧ m.isText)) : (b.leaf kind).Regular where
  current := h.current.cons (Node.regular_leaf _ _) he ha
  before := h.before
  kind := h.kind

theorem text (content : List Char) : (b.text content).Regular := by
  have hn {n : Node} {s : String} (hk : n.kind = .text s) (hs : s ≠ "") : n.isEmptyText = false := by
    simp [Node.isEmptyText, Node.text, hk, Kind.text?, hs]
  obtain ⟨-, e⟩ | ⟨n, ns, hb, ht, hc, e⟩ | ⟨ha, hc, e⟩ := b.text_cases content <;> rw [e]
  case inl => exact h
  case inr.inl =>
    obtain ⟨s, hs⟩ := Node.isText_iff.mp ht
    have hr := h.current
    rw [hb] at hr
    have ha := (List.isChain_cons.mp hr.merged.apart).left
    have hk : (n.appendText (String.ofList content)).kind = .text (s ++ String.ofList content) := by
      simp [Node.appendText, hs, Kind.mapText]
    refine ⟨hr.tail.cons ?_ (hn hk (by simp [hc])) fun m hm => ?_, h.before, h.kind⟩
    case refine_1 =>
      obtain ⟨hb, hc⟩ := Node.regular_iff.mp (hr.regular n (.head _))
      exact Node.regular_iff.mpr ⟨fun _ => hb (by rw [hs]; rfl), hc⟩
    case refine_2 => exact fun hm' => ha m hm ⟨ht, hm'.right⟩
  case inr.inr => exact h.leaf (hn rfl (by simpa using hc)) fun m hm => by simp [ha m hm]

theorem start (tag : String) (attributes : List Attribute) (isClosed : Bool) :
    (b.start tag attributes isClosed).Regular := by
  rw [Builder.start]
  split
  case isTrue =>
    refine h.leaf ?_ ?_
    · simp [Node.isEmptyText, Node.isText, Traits.isText_kind]
    · simp [Traits.isText_kind]
  case isFalse hv =>
    exact {
      current := Node.regularAll_nil
      before := List.forall_mem_cons.mpr ⟨h.current, h.before⟩
      kind := List.forall_mem_cons.mpr ⟨Traits.isBarren_kind (by simp_all), h.kind⟩ }

theorem stop (tag : String) : (b.stop tag).Regular := by
  obtain ⟨-, e⟩ | ⟨inner, e, outer, ho, -, -, hs⟩ := b.stop_cases tag
  case inl => rwa [e]
  case inr =>
    have hb := h.before
    have hk := h.kind
    rw [List.append_cons] at ho
    rw [ho, List.forall_mem_append] at hb hk
    rw [hs]
    exact ⟨regularAll_closeInnermost h.current hb.left hk.left, hb.right, hk.right⟩

theorem add (token : Token) : (b.add token).Regular := by
  cases token with
  | text content => exact h.text content
  | start name attributes isClosed => exact h.start _ attributes isClosed
  | stop name => exact h.stop _

theorem foldl (tokens : List Token) : (tokens.foldl Builder.add b).Regular := by
  induction tokens generalizing b with
  | nil => exact h
  | cons token tokens ih => exact ih (h.add token)

theorem nodes : RegularAll b.nodes :=
  Node.regularAll_reverse.mpr (regularAll_closeInnermost h.current h.before h.kind)

end Regular

end Builder

end Markup

namespace Tree

-- What is read beneath a fresh root: every node is attached, and ids follow the order of the document.
structure ReadBeneath (t : Tree) (root : NodeId) : Prop where
  wf : t.WellFormed
  order : (t.preorder root).map Node.id = NodeId.given 0 t.made
  nonempty : ∀ n ∈ t.preorder root, n.id ≠ root → n.isEmptyText = false
  apart : ∀ n ∈ t.preorder root, n.children.IsChain fun m m' => ¬(m.isText ∧ m'.isText)
  barren : ∀ n ∈ t.preorder root, n.id ≠ root → n.kind.isBarren → n.children = []

-- Whatever the text, well-formed or not, and whether or not all of it can be read.
theorem readBeneath_parseInto (kind : Kind) (markup : String) :
    ((empty.create kind).2.parseInto (empty.create kind).1 markup).1.ReadBeneath
      (empty.create kind).1 := by
  let b := (Markup.parseAfter [] 1 markup).1
  let r : Node := .mk ⟨0⟩ kind b.nodes
  have h₀ : (⟨[], [], 1⟩ : Markup.Builder).Regular := ⟨Node.regularAll_nil, nofun, nofun⟩
  have hr : Node.RegularAll b.nodes := (h₀.foldl _).nodes
  have ⟨hle, ho⟩ := Markup.Builder.idsAll_nodes_parseAfter [] 1 markup
  have e : ((empty.create kind).2.parseInto ⟨0⟩ markup).1 = ⟨[r], b.next⟩ := rfl
  have hi : r.ids = NodeId.given 0 b.next := by
    rw [← NodeId.given_append (Nat.zero_le 1) hle, Node.ids_mk, ho]
    rfl
  have hp : (Tree.mk [r] b.next).preorder ⟨0⟩ = r.preorder := by
    simp [preorder, node?_eq_find?, Node.preorderAll, Node.preorder_eq, r]
  have hm : ∀ n ∈ r.preorder, Canonical.Merged n.children := by
    rw [Node.preorder_eq, Node.preorderAll_eq_flatMap]
    simpa using ⟨hr.merged, fun n c hc hn => (hr.regular c hc).merged n hn⟩
  change ((empty.create kind).2.parseInto ⟨0⟩ markup).1.ReadBeneath ⟨0⟩
  rw [e]
  refine ⟨?wf, hp ▸ hi, hp ▸ ?nonempty, hp ▸ fun n hn => (hm n hn).apart, hp ▸ ?barren⟩
  case wf => exact wellFormed_iff.mpr (by simp [hi])
  case nonempty =>
    intro n hn hne
    obtain rfl | ⟨p, hp, hn⟩ := Node.mem_preorder_cases r hn
    · exact absurd rfl hne
    · exact (hm p hp).nonempty n hn
  case barren =>
    intro n hn hne hk
    rw [Node.preorder_eq, Node.preorderAll_eq_flatMap, List.mem_cons, List.mem_flatMap] at hn
    obtain rfl | ⟨c, hc, hn⟩ := hn
    · exact absurd rfl hne
    · exact (hr.regular c hc).barren n hn hk

end Tree

end RichText
