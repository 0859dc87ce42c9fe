import RichText.Proofs.Ordered
import RichText.Proofs.Readable

namespace RichText

open Markup

namespace StyleSet

theorem ofList_tags (s : StyleSet) : ofList s.tags = s :=
  ext fun _ => mem_ofList.trans mem_def.symm

end StyleSet

namespace Kind

-- What markup can tell: tags in lower case, style tags without blanks, and indices of 64 bits.
def IsWritable : Kind → Prop
  | text _ | lineBreak _ => True
  | wrapper styles =>
    styles ≠ ∅ ∧ ∀ tag ∈ styles.tags, tag ≠ "" ∧ ∀ c ∈ tag.toList, Text.isBlank c = false
  | embed tag | element tag => IsTag tag ∧ tag ≠ "br"
  | block tag index _ | cell tag index => IsTag tag ∧ tag ≠ "br" ∧ index < Text.naturalBound

instance : (k : Kind) → Decidable k.IsWritable
  | text _ | lineBreak _ => inferInstanceAs (Decidable True)
  | wrapper _ | embed _ | element _ | block .. | cell .. => inferInstanceAs (Decidable (_ ∧ _))

end Kind

namespace Markup

def Attribute.ofText (a : String × String) : Attribute :=
  ⟨a.1.toList, escapeQuoted a.2.toList⟩

theorem Attribute.text_ofText (a : String × String) : (ofText a).text = a.2.toList :=
  decode_escapeQuoted _

theorem Attribute.name_ofText (key : String) (h : key.toList.map Char.toLower = key.toList)
    (value : String) : (ofText (key, value)).name = key := by
  rw [name, ofText, h, String.ofList_toList]

theorem classes_classes {styles : StyleSet} (h : (Kind.wrapper styles).IsWritable) :
    classes styles.classes.toList = styles := by
  have hw := Text.words_intercalate (fun w hw => (h.right w hw).left) fun w hw => (h.right w hw).right
  rw [classes, StyleSet.classes, hw, List.map_map]
  simpa using styles.ofList_tags

namespace Traits

variable (t : Traits) (value : String)

theorem add_class :
    t.add (.ofText ("class", value)) = { t with classes := Markup.classes value.toList } := by
  have hn := Attribute.name_ofText "class" (by decide) value
  simp [add, hn, Attribute.text_ofText]

theorem add_editable : t.add (.ofText ("contenteditable", value)) =
    { t with editable := some (value.toList.map Char.toLower ≠ "false".toList) } := by
  have hn := Attribute.name_ofText "contenteditable" (by decide) value
  simp [add, hn, Attribute.text_ofText]

theorem add_block {index : Nat} (h : index < Text.naturalBound) :
    t.add (.ofText ("data-block-index", toString index)) = { t with block := some index } := by
  have hn := Attribute.name_ofText "data-block-index" (by decide) (toString index)
  simp only [add, hn, Attribute.text_ofText, Text.natural?_toString h]

theorem add_cell {index : Nat} (h : index < Text.naturalBound) :
    t.add (.ofText ("data-table-index", toString index)) = { t with cell := some index } := by
  have hn := Attribute.name_ofText "data-table-index" (by decide) (toString index)
  simp only [add, hn, Attribute.text_ofText, Text.natural?_toString h]

theorem kind_asElement {k : Kind} (h : k.IsWritable) (hl : k.isLeaf = false) :
    (ofAttributes (k.asElement.2.map .ofText)).kind k.asElement.1 = k := by
  cases k with
  | text | lineBreak => contradiction
  | wrapper styles =>
    have hs : styles.isEmpty = false :=
      Bool.eq_false_iff.mpr fun e => h.left (StyleSet.isEmpty_iff.mp e)
    simp [Kind.asElement, ofAttributes, add_class, classes_classes h, kind, hs]
  | embed tag => simp [Kind.asElement, ofAttributes, add_editable, kind, h.right]
  | element tag => simp [Kind.asElement, ofAttributes, kind, h.right]
  | cell tag index =>
    have ha := add_cell { editable := some true } h.right.right
    simp only [Nat.toString_eq_repr] at ha
    simp [Kind.asElement, ofAttributes, add_editable, ha, kind, h.right.left]
  | block tag index editable =>
    have ha := add_block {} h.right.right
    simp only [Nat.toString_eq_repr] at ha
    cases editable <;>
      simp [Kind.asElement, ofAttributes, add_editable, ha, kind, h.right.left]

theorem kind_lineBreak (trailing : Bool) :
    (ofAttributes ((if trailing then [("data-trailing", "")] else []).map .ofText)).kind "br" =
      .lineBreak trailing := by
  have hn := Attribute.name_ofText "data-trailing" (by decide) ""
  cases trailing
  case false => rfl
  case true => simp [ofAttributes, add, hn, kind]

end Traits

theorem isTag_asElement {k : Kind} (h : k.IsWritable) (hl : k.isLeaf = false) :
    IsTag k.asElement.1 := by
  cases k with
  | text | lineBreak => contradiction
  | wrapper => simp [Kind.asElement, IsTag]
  | embed | element | block | cell => exact h.left

theorem isKey_asElement {k : Kind} : ∀ a ∈ k.asElement.2, IsKey a.1 := by
  cases k with
  | text | lineBreak | element => exact nofun
  | wrapper | embed | cell => simp [Kind.asElement, IsKey, isSpace]
  | block _ _ editable => cases editable <;> simp [Kind.asElement, IsKey, isSpace]

theorem nodup_asElement {k : Kind} : (k.asElement.2.map (·.1)).Nodup := by
  cases k with
  | block _ _ editable => cases editable <;> simp [Kind.asElement]
  | _ => simp [Kind.asElement]

namespace Builder

variable {b : Builder}

@[simp]
theorem text_nil : b.text [] = b :=
  rfl

theorem text_of_ne_nil {content : List Char} (h : content ≠ []) : b.text content =
    match b.current with
    | n :: ns =>
      if n.isText then { b with current := n.appendText (String.ofList content) :: ns }
      else b.leaf (.text (String.ofList content))
    | [] => b.leaf (.text (String.ofList content)) :=
  if_neg (by simpa using h)

theorem text_append (xs ys : List Char) : b.text (xs ++ ys) = (b.text xs).text ys := by
  by_cases hx : xs = []
  case pos => rw [hx, List.nil_append, text_nil]
  by_cases hy : ys = []
  case pos => rw [hy, List.append_nil, text_nil]
  have ha (n : Node) : n.appendText (String.ofList (xs ++ ys)) =
      (n.appendText (String.ofList xs)).appendText (String.ofList ys) := by
    obtain ⟨i, k, cs⟩ := n
    cases k <;> simp [Node.appendText, Node.withKind, Kind.mapText, String.append_assoc]
  have hl : b.leaf (.text (String.ofList (xs ++ ys))) =
      (b.leaf (.text (String.ofList xs))).text ys := by
    rw [String.ofList_append, text_of_ne_nil hy]
    rfl
  rw [text_of_ne_nil (by simp [hx]), text_of_ne_nil hx]
  split
  case h_2 => exact hl
  case h_1 n ns =>
    split
    case isFalse => exact hl
    case isTrue ht => simp only [text_of_ne_nil hy, Node.isText_appendText, ht, if_true, ha]

-- What a builder makes of a text, and what stopped the reading before the end.
def read (total : Nat) (b : Builder) (cs : List Char) : Builder × Option MarkupError :=
  let (tokens, e) := Token.readAll total cs.length cs
  (tokens.foldl add b, e)

variable {total : Nat} {cs rest : List Char}

theorem read_nil : read total b [] = (b, none) :=
  rfl

theorem read_token {t : Token} (h : Token.readStep cs = .token t rest) (hn : cs ≠ []) :
    read total b cs = read total (b.add t) rest := by
  match cs with
  | c :: cs =>
    have hl : rest.length < (c :: cs).length := Token.length_of_readStep (by rw [h]; rfl)
    have hr : Token.readAll total cs.length rest = Token.readAll total rest.length rest :=
      Token.readAll_of_le (Nat.le_of_lt_succ hl) (Nat.le_refl _)
    simp only [read, List.length_cons, Token.readAll, h, hr, List.foldl_cons]

theorem read_plain {c : Char} (h : c ≠ '&' ∧ c ≠ '<') :
    read total b (c :: rest) = read total (b.text [c]) rest := by
  let isPlain (c : Char) := c ≠ '<' && c ≠ '&'
  have hs (c : Char) (h : c ≠ '&' ∧ c ≠ '<') (rest : List Char) : Token.readStep (c :: rest) =
      .token (.text (c :: rest.takeWhile isPlain)) (rest.dropWhile isPlain) := by
    unfold Token.readStep
    simp [h, isPlain]
  rw [read_token (hs c h rest) (List.cons_ne_nil _ _), add, ← List.singleton_append, text_append]
  by_cases hd : ∃ d ds, rest = d :: ds ∧ d ≠ '&' ∧ d ≠ '<'
  case pos =>
    obtain ⟨d, ds, rfl, hd⟩ := hd
    rw [read_token (hs d hd ds) (List.cons_ne_nil _ _), add]
    simp [hd, isPlain]
  case neg =>
    cases rest with
    | nil => simp
    | cons d ds =>
      have hp : isPlain d = false := by
        simp only [isPlain, Bool.and_eq_false_iff, decide_eq_false_iff_not]
        grind
      simp [hp]

theorem read_reference {body : List Char} (h : ∀ c ∈ body, c ≠ '&' ∧ c ≠ '<' ∧ c ≠ ';') :
    read total b ('&' :: body ++ ';' :: rest) = read total (b.text (expand body)) rest := by
  have hi : ∀ c ∈ body, (c ≠ ';' && c ≠ '&' && c ≠ '<') = true := fun c hc => by simp [h c hc]
  have hd : (body ++ ';' :: rest).dropWhile _ = _ := List.dropWhile_append_of_pos hi
  have ht : (body ++ ';' :: rest).takeWhile _ = _ := List.takeWhile_append_of_pos hi
  rw [List.dropWhile_cons_of_neg (by simp)] at hd
  rw [List.takeWhile_cons_of_neg (by simp), List.append_nil] at ht
  refine read_token (t := .text (expand body)) ?_ (by simp)
  rw [List.cons_append]
  unfold Token.readStep
  simp only [hd, ht]

theorem read_escape (s : List Char) :
    read total b (escape s ++ rest) = read total (b.text s) rest := by
  induction s generalizing b with
  | nil => rfl
  | cons c s ih =>
    rw [← List.singleton_append, text_append, ← ih, escape, escape, List.singleton_append,
      List.flatMap_cons, List.append_assoc]
    obtain ⟨body, he, hb, hc⟩ | ⟨he, h⟩ := escapeChar_cases c
    case inl => simpa [he, hc] using read_reference (b := b) hb
    case inr => rw [he, List.singleton_append, read_plain h]

theorem read_startTag {tag : String} {attributes : List (String × String)} (ht : IsTag tag)
    (hk : ∀ a ∈ attributes, IsKey a.1) (hd : (attributes.map (·.1)).Nodup) :
    read total b (startTag tag attributes ++ rest) =
      read total (b.start tag (attributes.map .ofText) false) rest := by
  rw [read_token (Token.readStep_startTag ht hk hd rest) (by simp [startTag_eq]), add,
    String.ofList_toList]
  rfl

theorem read_stopTag {tag : String} (ht : IsTag tag) (hv : isVoid tag = false) :
    read total b (stopTag tag ++ rest) = read total (b.stop tag) rest := by
  rw [read_token (Token.readStep_stopTag ht hv rest) (by simp [stopTag, hv]), add,
    String.ofList_toList]

theorem start_of_isVoid {tag : String} (h : isVoid tag) (attributes : List Attribute) :
    b.start tag attributes false = b.leaf ((Traits.ofAttributes attributes).kind tag) := by
  rw [start, if_pos (by simpa using h)]

theorem stop_innermost (current before : List Node) (i : NodeId) (k : Kind) (tag : String)
    (es : List OpenElement) (next : Nat) :
    stop ⟨current, ⟨i, k, tag, before⟩ :: es, next⟩ tag =
      ⟨.mk i k current.reverse :: before, es, next⟩ := by
  simp [stop, closeInnermost]

theorem parseAfter_eq_read (before : List Node) (next : Nat) {markup : String}
    (h : markup.toList.head? ≠ some '\ufeff') : parseAfter before next markup =
      read (Token.size markup.toList) ⟨before.reverse, [], next⟩ markup.toList := by
  have ho : Token.ofText markup.toList =
      Token.readAll (Token.size markup.toList) markup.toList.length markup.toList := by
    unfold Token.ofText
    split
    case h_1 e => simp [e] at h
    case h_2 => rfl
  rw [parseAfter, ho]
  rfl

end Builder

end Markup

namespace Node

mutual

-- The kinds of the nodes in the order of the document, each with its depth.
def levels (depth : Nat) : Node → List (Nat × Kind)
  | mk _ k cs => (depth, k) :: levelsAll (depth + 1) cs

def levelsAll (depth : Nat) : List Node → List (Nat × Kind)
  | [] => []
  | n :: ns => n.levels depth ++ levelsAll depth ns

end

def SameLevels (n n' : Node) : Prop :=
  ∀ depth, n.levels depth = n'.levels depth

theorem SameLevels.kind {n n' : Node} (h : n.SameLevels n') : n.kind = n'.kind := by
  have ⟨_, _, _⟩ := n
  have ⟨_, _, _⟩ := n'
  have h := h 0
  simp only [levels, List.cons.injEq, Prod.mk.injEq] at h
  exact h.left.right

theorem levelsAll_of_sameLevels {ns ns' : List Node} (h : List.Forall₂ SameLevels ns ns')
    (depth : Nat) : levelsAll depth ns = levelsAll depth ns' := by
  induction h with
  | nil => rfl
  | cons h _ ih => rw [levelsAll, levelsAll, h depth, ih]

theorem markup_of_not_isLeaf {k : Kind} (h : k.isLeaf = false) (i : NodeId) (cs : List Node) :
    (mk i k cs).markup =
      startTag k.asElement.1 k.asElement.2 ++ (markupAll cs ++ stopTag k.asElement.1) := by
  cases k <;> first | contradiction | simp [markup]

theorem markup_lineBreak (i : NodeId) (trailing : Bool) (cs : List Node) :
    (mk i (.lineBreak trailing) cs).markup =
      startTag "br" (if trailing then [("data-trailing", "")] else []) := by
  cases trailing <;> rfl

def IsWritable (n : Node) : Prop :=
  ∀ m ∈ n.preorder, m.kind.IsWritable

-- What a builder makes of a piece of markup is a node for each of those given.
def ReadsAs (total : Nat) (b : Builder) (cs rest : List Char) (ns : List Node) : Prop :=
  ∃ ns' next, List.Forall₂ SameLevels ns' ns ∧
    b.read total (cs ++ rest) = Builder.read total ⟨ns'.reverse ++ b.current, b.opened, next⟩ rest

variable {total : Nat} {rest : List Char} {b : Builder}

theorem readsAs_leaf {cs : List Char} {i : NodeId} {k : Kind}
    (h : b.read total (cs ++ rest) = (b.leaf k).read total rest) :
    ReadsAs total b cs rest [mk i k []] :=
  ⟨[.mk ⟨b.next⟩ k []], b.next + 1, .cons (fun _ => rfl) .nil, h⟩

theorem readsAs_text {s : String} (i : NodeId) (he : s ≠ "")
    (ha : ∀ m ∈ b.current.head?, m.isText = false) :
    ReadsAs total b (mk i (.text s) []).markup rest [mk i (.text s) []] := by
  refine readsAs_leaf ((b.read_escape s.toList).trans ?_)
  rw [Builder.text_of_ne_nil (by simpa using he), String.ofList_toList]
  split
  case h_2 => rfl
  case h_1 n _ hb => rw [if_neg (by simp [ha n (by rw [hb]; rfl)])]

theorem readsAs_lineBreak (i : NodeId) (trailing : Bool) :
    ReadsAs total b (mk i (.lineBreak trailing) []).markup rest [mk i (.lineBreak trailing) []] := by
  have ht : IsTag "br" := by simp [IsTag]
  refine readsAs_leaf ?_
  rw [markup_lineBreak, Builder.read_startTag ht, Builder.start_of_isVoid (by decide),
    Traits.kind_lineBreak]
  all_goals cases trailing <;> simp [IsKey, isSpace]

theorem readsAs_element {k : Kind} {cs : List Node} (i : NodeId) (hk : k.IsWritable)
    (hl : k.isLeaf = false) (hb : isVoid k.asElement.1 → cs = [])
    (hc : ReadsAs total ⟨[], ⟨⟨b.next⟩, k, k.asElement.1, b.current⟩ :: b.opened, b.next + 1⟩
      (markupAll cs) (stopTag k.asElement.1 ++ rest) cs) :
    ReadsAs total b (mk i k cs).markup rest [mk i k cs] := by
  have ht := isTag_asElement hk hl
  have hs : b.read total ((mk i k cs).markup ++ rest) =
      (b.start k.asElement.1 (k.asElement.2.map .ofText) false).read total
        (markupAll cs ++ (stopTag k.asElement.1 ++ rest)) := by
    rw [markup_of_not_isLeaf hl, List.append_assoc, List.append_assoc,
      Builder.read_startTag ht isKey_asElement nodup_asElement]
  cases hv : isVoid k.asElement.1 with
  | true =>
    obtain rfl := hb hv
    refine readsAs_leaf (hs.trans ?_)
    rw [Builder.start_of_isVoid hv, Traits.kind_asElement hk hl, stopTag, if_pos hv]
    rfl
  | false =>
    obtain ⟨cs', next, hd, hc⟩ := hc
    refine ⟨[.mk ⟨b.next⟩ k cs'], next, .cons (fun depth => ?_) .nil, ?_⟩
    · simp [levels, levelsAll_of_sameLevels hd]
    rw [hs, Builder.start, if_neg (by simp [hv]), Traits.kind_asElement hk hl, hc,
      Builder.read_stopTag ht hv, Builder.stop_innermost]
    simp

mutual

theorem readsAs_markup (total : Nat) (b : Builder) (rest : List Char) (n : Node)
    (hr : n.Regular) (hw : n.IsWritable) (he : n.isEmptyText = false)
    (ha : ∀ m ∈ b.current.head?, ¬(n.isText ∧ m.isText)) : ReadsAs total b n.markup rest [n] := by
  have ⟨i, k, cs⟩ := n
  have ⟨hb, hr⟩ := regular_iff.mp hr
  have hk : k.IsWritable := hw _ (mem_preorder_self _)
  cases hl : k.isLeaf with
  | true =>
    obtain rfl : cs = [] := hb (by simp [Kind.isBarren, hl])
    match k with
    | .lineBreak trailing => exact readsAs_lineBreak i trailing
    | .text s =>
      refine readsAs_text i ?_ ?_
      · simpa [isEmptyText, isText, Kind.isText, text, Kind.text?] using he
      · simpa [isText, Kind.isText] using ha
  | false =>
    refine readsAs_element i hk hl (fun hv => hb (by simp [Kind.isBarren, hv])) ?_
    exact readsAs_markupAll _ _ _ cs hr (fun c hc m hm => hw m (mem_preorder_of_child hc hm)) nofun

theorem readsAs_markupAll (total : Nat) (b : Builder) (rest : List Char) (ns : List Node)
    (hr : RegularAll ns) (hw : ∀ n ∈ ns, n.IsWritable)
    (ha : ∀ m ∈ b.current.head?, ∀ n ∈ ns.head?, ¬(n.isText ∧ m.isText)) :
    ReadsAs total b (markupAll ns) rest ns := by
  match ns with
  | [] => exact ⟨[], b.next, .nil, rfl⟩
  | n :: ns =>
    rw [List.forall_mem_cons] at hw
    have hc := (List.isChain_cons.mp hr.merged.apart).left
    have ⟨ns₁, next₁, hr₁, e⟩ := readsAs_markup total b (markupAll ns ++ rest) n
      (hr.regular n (.head _)) hw.left (hr.merged.nonempty n (.head _)) fun m hm => ha m hm n rfl
    obtain ⟨n', ns₂, hn, hr₂, rfl⟩ := List.forall₂_cons_right_iff.mp hr₁
    obtain rfl := List.forall₂_nil_right_iff.mp hr₂
    have ha' : ∀ m ∈ ([n'].reverse ++ b.current).head?, ∀ n ∈ ns.head?, ¬(n.isText ∧ m.isText) := by
      intro m hm n₂ hn₂
      cases hm
      simpa [isText, hn.kind, and_comm] using hc n₂ hn₂
    have ⟨ns', next, hns, e'⟩ := readsAs_markupAll total
      ⟨[n'].reverse ++ b.current, b.opened, next₁⟩ rest ns hr.tail hw.right ha'
    refine ⟨n' :: ns', next, .cons hn hns, ?_⟩
    rw [markupAll, List.append_assoc, e, e']
    simp

end

end Node

namespace Tree

-- The kinds of the nodes beneath a node in the order of the document, each with its depth.
def levels (t : Tree) (id : NodeId) : List (Nat × Kind) :=
  Node.levelsAll 0 (t.children id)

end Tree

namespace Document

-- Markup that was written can be read, and says the same.
theorem parse_innerMarkup {t : Tree} {root : NodeId} (hr : Node.RegularAll (t.children root))
    (hw : ∀ n ∈ t.children root, n.IsWritable)
    (hm : (t.innerMarkup root).toList.head? ≠ some '\ufeff') :
    ∃ d, parse (t.innerMarkup root) = .ok d ∧ d.tree.levels d.root = t.levels root := by
  have hi : (t.innerMarkup root).toList = Node.markupAll (t.children root) := by
    rw [Tree.innerMarkup, Tree.children]
    cases t.node? root with
    | none => rfl
    | some n => exact String.toList_ofList
  obtain ⟨ns, next, ha, e⟩ := Node.readsAs_markupAll (Token.size (t.innerMarkup root).toList)
    ⟨[], [], 1⟩ [] (t.children root) hr hw (by simp)
  rw [List.append_nil, List.append_nil, ← hi, Builder.read_nil] at e
  have hp : empty.tree.parseInto empty.root (t.innerMarkup root) =
      (⟨[.mk ⟨0⟩ (.element "div") ns], next⟩, none) := by
    have hb : parseAfter (empty.tree.children empty.root) empty.tree.made (t.innerMarkup root) =
        (⟨ns.reverse, [], next⟩, none) := (Builder.parseAfter_eq_read [] 1 hm).trans e
    rw [Tree.parseInto, hb]
    simp [Builder.nodes, Builder.closeInnermost]
    rfl
  rw [parse, hp]
  exact ⟨_, rfl, Node.levelsAll_of_sameLevels ha 0⟩

-- A page with what has to be escaped, a nested style, a trailing break and an element without end.
def page : Document where
  tree.roots := [.mk ⟨0⟩ (.element "div") [
    .mk ⟨1⟩ (.block "p" 7 false) [
      .mk ⟨2⟩ (.text "a&b") [],
      .mk ⟨3⟩ (.wrapper (.single "b\"")) [.mk ⟨4⟩ (.text "<c>") [], .mk ⟨5⟩ (.lineBreak true) []],
      .mk ⟨6⟩ (.embed "img") []],
    .mk ⟨7⟩ (.cell "td" 0) []]]
  tree.made := 8
  root := ⟨0⟩

theorem parse_innerMarkup_page :
    Node.RegularAll (page.tree.children page.root) ∧
      (∀ n ∈ page.tree.children page.root, n.IsWritable) ∧
      page.innerMarkup.toList.head? ≠ some '\ufeff' ∧
      ∃ d, parse page.innerMarkup = .ok d ∧ d.tree.levels d.root = page.tree.levels page.root := by
  have hr : Node.RegularAll (page.tree.children page.root) := by decide
  have hw : ∀ n ∈ page.tree.children page.root, n.IsWritable := by
    have hs : (StyleSet.single "b\"").tags = ["b\""] := rfl
    have hn : StyleSet.single "b\"" ≠ ∅ := by decide
    simp [page, Tree.children, Tree.node?_eq_find?, Node.preorder, Node.preorderAll, Node.IsWritable,
      Kind.IsWritable, IsTag, hs, hn, Text.isBlank, Text.naturalBound, UInt64.size]
  have hm : page.innerMarkup.toList.head? ≠ some '\ufeff' := by
    simp [page, innerMarkup, Tree.innerMarkup, Tree.node?_eq_find?, Node.preorder, Node.preorderAll,
      Node.innerMarkup, Node.markupAll, Node.markup, startTag, Kind.asElement]
  exact ⟨hr, hw, hm, parse_innerMarkup hr hw hm⟩

end Document

end RichText
