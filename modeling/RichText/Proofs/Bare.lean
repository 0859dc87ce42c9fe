import RichText.CommandLine.Run
import RichText.Proofs.Enclosed

namespace RichText

namespace Markup

theorem length_escape_pos {cs : List Char} (h : cs ≠ []) : 0 < (escape cs).length := by
  have ⟨c, cs, e⟩ := List.exists_cons_of_ne_nil h
  have hc : 0 < (escapeChar c).length := by
    obtain ⟨_, he, -, -⟩ | ⟨he, -, -⟩ := escapeChar_cases c <;> simp [he]
  rw [e, escape, List.flatMap_cons, List.length_append]
  omega

end Markup

namespace Node

open Markup

def markupLength (ns : List Node) : Nat :=
  (markupAll ns).length

theorem markupLength_cons (n : Node) (ns : List Node) :
    markupLength (n :: ns) = n.markup.length + markupLength ns := by
  rw [markupLength, markupAll, List.length_append]
  rfl

theorem markupLength_reverse (ns : List Node) : markupLength ns.reverse = markupLength ns := by
  rw [markupLength, markupLength, markupAll_eq_flatMap, markupAll_eq_flatMap]
  exact ((List.reverse_perm ns).flatMap_right _).length_eq

theorem length_markup {k : Kind} (h : k.isLeaf = false) (i : NodeId) (cs : List Node) :
    (mk i k cs).markup.length = markupLength cs +
      ((startTag k.asElement.1 k.asElement.2).length + (stopTag k.asElement.1).length) := by
  rw [markup_of_not_isLeaf h, List.length_append, List.length_append, markupLength]
  omega

theorem length_markup_pos {k : Kind} (h : k ≠ .text "") (i : NodeId) (cs : List Node) :
    0 < (mk i k cs).markup.length := by
  cases k with
  | text s => exact length_escape_pos fun e => h (congrArg Kind.text (String.toList_eq_nil_iff.mp e))
  | lineBreak trailing => cases trailing <;> simp [markup, startTag]
  | _ => simp [markup, startTag]

theorem length_appendText {n : Node} (hn : n.isText) {content : List Char} (hc : content ≠ []) :
    n.markup.length < (n.appendText (String.ofList content)).markup.length := by
  have ⟨i, k, cs⟩ := n
  cases k with
  | text s =>
    have hp := length_escape_pos hc
    simpa [appendText, withKind, Kind.mapText, markup, escape] using hp
  | _ => contradiction

def linesAmong (ns : List Node) : List String :=
  Lines.ofKinds ((flowAll ns).map kind)

theorem linesAmong_shiftAll (k : Nat) (ns : List Node) :
    linesAmong (shiftAll k ns) = linesAmong ns := by
  rw [linesAmong, linesAmong, flowAll_shift]

end Node

namespace Markup

open Node (markupAll markupLength)

theorem Traits.kind_ne_text {t : Traits} {tag : String} (s : String) : t.kind tag ≠ .text s := by
  rw [kind]
  split
  case isTrue => simp
  case isFalse => split <;> (try split) <;> simp

namespace Token

-- Whether a token leaves a trace in what is read.
def shows : Token → Bool
  | text content => !content.isEmpty
  | start .. => true
  | stop _ => false

end Token

namespace Builder

variable {b : Builder} {before : List Node} {first : Nat}

theorem markupLength_closeInnermost {current current' : List Node} {es : List OpenElement}
    (hk : ∀ e ∈ es, e.kind.isLeaf = false) (h : markupLength current < markupLength current') :
    markupLength (closeInnermost current es) < markupLength (closeInnermost current' es) := by
  induction es generalizing current current' with
  | nil => exact h
  | cons e es ih =>
    rw [List.forall_mem_cons] at hk
    refine ih hk.right ?_
    simp only [Node.markupLength_cons, Node.length_markup hk.left, Node.markupLength_reverse]
    omega

theorem nodes_start (tag : String) (attributes : List Attribute) (isClosed : Bool) :
    (b.start tag attributes isClosed).nodes =
      (b.leaf ((Traits.ofAttributes attributes).kind tag)).nodes := by
  rw [start]
  split <;> rfl

theorem nodes_stop (tag : String) : (b.stop tag).nodes = b.nodes := by
  obtain ⟨-, e⟩ | ⟨inner, e, outer, ho, -, -, hs⟩ := b.stop_cases tag
  case inl => rw [e]
  case inr =>
    rw [List.append_cons] at ho
    rw [hs, nodes, nodes, ho, closeInnermost_append _ (inner ++ [e])]

theorem nodes_add_of_not_shows {t : Token} (h : t.shows = false) : (b.add t).nodes = b.nodes := by
  cases t with
  | text content =>
    obtain rfl : content = [] := by simpa [Token.shows] using h
    rfl
  | start name attributes isClosed => contradiction
  | stop name => exact nodes_stop _

theorem nodes_foldl_of_not_shows {ts : List Token} (h : ∀ t ∈ ts, t.shows = false) :
    (ts.foldl add b).nodes = b.nodes := by
  induction ts generalizing b with
  | nil => rfl
  | cons t ts ih =>
    rw [List.forall_mem_cons] at h
    rw [List.foldl_cons, ih h.right, nodes_add_of_not_shows h.left]

theorem sound_empty : Sound [] 1 ⟨[], [], 1⟩ where
  le := Nat.le_refl _
  perm := by simp [ids]
  current := Node.leavesEmptyAll_nil
  before := nofun
  kind := nofun

section Sound

variable (hs : b.Sound before first)

include hs

theorem markupLength_leaf {k : Kind} (h : k ≠ .text "") :
    markupLength b.nodes < markupLength (b.leaf k).nodes := by
  rw [nodes, nodes, Node.markupLength_reverse, Node.markupLength_reverse]
  refine markupLength_closeInnermost hs.kind ?_
  rw [leaf, Node.markupLength_cons]
  exact Nat.lt_add_of_pos_left (Node.length_markup_pos h _ _)

theorem markupLength_text {content : List Char} (h : content ≠ []) :
    markupLength b.nodes < markupLength (b.text content).nodes := by
  obtain ⟨e, -⟩ | ⟨n, ns, hc, hn, -, e⟩ | ⟨-, -, e⟩ := b.text_cases content
  case inl => exact absurd e h
  case inr.inl =>
    rw [e, nodes, nodes, Node.markupLength_reverse, Node.markupLength_reverse]
    refine markupLength_closeInnermost hs.kind ?_
    rw [hc, Node.markupLength_cons, Node.markupLength_cons]
    exact Nat.add_lt_add_right (Node.length_appendText hn h) _
  case inr.inr => exact e ▸ markupLength_leaf hs (by simpa using h)

theorem markupLength_add {t : Token} (h : t.shows) :
    markupLength b.nodes < markupLength (b.add t).nodes := by
  cases t with
  | text content => exact markupLength_text hs (by simpa [Token.shows] using h)
  | start name attributes isClosed =>
    rw [add, nodes_start]
    exact markupLength_leaf hs (Traits.kind_ne_text "")
  | stop name => contradiction

theorem markupLength_foldl_le (ts : List Token) :
    markupLength b.nodes ≤ markupLength (ts.foldl add b).nodes := by
  induction ts generalizing b with
  | nil => exact Nat.le_refl _
  | cons t ts ih =>
    refine Nat.le_trans ?_ (ih (hs.add t))
    by_cases h : t.shows
    case pos => exact Nat.le_of_lt (markupLength_add hs h)
    case neg => rw [nodes_add_of_not_shows (by simpa using h)]

-- What is read after some tokens is the same for more of them only where none of those shows.
theorem markupAll_foldl_eq_iff {ts : List Token} :
    markupAll b.nodes = markupAll (ts.foldl add b).nodes ↔ ∀ t ∈ ts, t.shows = false := by
  refine ⟨fun h => ?_, fun h => by rw [nodes_foldl_of_not_shows h]⟩
  replace h : markupLength b.nodes = markupLength (ts.foldl add b).nodes := congrArg List.length h
  induction ts generalizing b with
  | nil => nofun
  | cons t ts ih =>
    have hle : markupLength (b.add t).nodes ≤ markupLength (ts.foldl add (b.add t)).nodes :=
      markupLength_foldl_le (hs.add t) ts
    by_cases ht : t.shows
    case pos =>
      have hlt := markupLength_add hs ht
      rw [List.foldl_cons] at h
      omega
    case neg =>
      replace ht : t.shows = false := by simpa using ht
      rw [List.foldl_cons, ← nodes_add_of_not_shows (b := b) ht] at h
      exact List.forall_mem_cons.mpr ⟨ht, ih (hs.add t) h⟩

end Sound

end Builder

namespace Token

-- A byte order mark at the very start. Elsewhere it is a char like any other.
def mark : List Char → List Char
  | '\ufeff' :: _ => ['\ufeff']
  | _ => []

theorem exists_ofText (cs : List Char) :
    ∃ rest, cs = mark cs ++ rest ∧ ofText cs = readAll (size rest) rest.length rest := by
  unfold mark
  split
  case h_1 rest => exact ⟨rest, rfl, rfl⟩
  case h_2 hc =>
    refine ⟨cs, rfl, ?_⟩
    unfold ofText
    split
    case h_1 rest => exact (hc rest rfl).elim
    case h_2 => rfl

def content (start : List Char) (ts : List Token) : List Node :=
  (ts.foldl Builder.add (Builder.text ⟨[], [], 1⟩ start)).nodes

end Token

namespace Builder

theorem read_mark (total : Nat) (b : Builder) (cs rest : List Char) :
    read total b (Token.mark cs ++ rest) = read total (b.text (Token.mark cs)) rest := by
  unfold Token.mark
  split
  case h_1 => exact read_plain (by decide)
  case h_2 => rfl

theorem read_between {cs : List Char} (h : (Token.ofText cs).2 = none) (total : Nat)
    (b : Builder) : read total b (cs ++ stopTag "div") =
      (((Token.ofText cs).1.foldl add (b.text (Token.mark cs))).stop "div", none) := by
  obtain ⟨rest, hm, ho⟩ := Token.exists_ofText cs
  have hr : Token.Reads (Token.size rest) rest _ _ := Token.reads_readAll (Nat.le_refl rest.length)
  rw [← ho, h] at hr
  have ht : stopTag "div" = '<' :: "/div>".toList := by simp [stopTag, isVoid, voidTags]
  conv_lhs => rw [hm]
  rw [List.append_assoc, read_mark, ht, read_more hr, ← ht, ← List.append_nil (stopTag "div"),
    read_stopTag (by simp [IsTag]) (by decide), read_nil]

end Builder

end Markup

namespace Document

open Markup

def ofBuilder (b : Builder) : Document where
  tree.roots := [.mk ⟨0⟩ (.element "div") b.nodes]
  tree.made := b.next
  root := ⟨0⟩

theorem parse_eq_ok_iff {markup : String} {d : Document} :
    parse markup = .ok d ↔ ∃ b, parseAfter [] 1 markup = (b, none) ∧ d = ofBuilder b := by
  have hp : empty.tree.parseInto empty.root markup =
      ((ofBuilder (parseAfter [] 1 markup).1).tree, (parseAfter [] 1 markup).2) := rfl
  rw [parse, hp]
  obtain ⟨b, e⟩ := parseAfter [] 1 markup
  cases e with
  | none =>
    have hb : ({ empty with tree := (ofBuilder b).tree } : Document) = ofBuilder b := rfl
    simp [hb, eq_comm]
  | some e => simp

variable {b : Builder}

theorem node?_ofBuilder :
    (ofBuilder b).tree.node? (ofBuilder b).root = some (.mk ⟨0⟩ (.element "div") b.nodes) := by
  rw [Tree.node?_eq_find?]
  rfl

theorem innerMarkup_ofBuilder :
    (ofBuilder b).innerMarkup = String.ofList (Node.markupAll b.nodes) := by
  rw [innerMarkup, Tree.innerMarkup, node?_ofBuilder]
  rfl

theorem lines_ofBuilder :
    (ofBuilder b).tree.lines (ofBuilder b).root = Node.linesAmong b.nodes := by
  rw [Tree.lines, node?_ofBuilder]
  rfl

theorem blockAt?_ofBuilder {n : Node} (h : b.nodes.head? = some n)
    (hi : n.kind.blockIndex? = some index) : (ofBuilder b).blockAt? index = some n.id := by
  have ⟨ns, e⟩ := List.head?_eq_some_iff.mp h
  have ⟨i, k, cs⟩ := n
  have hp : (ofBuilder b).tree.preorder (ofBuilder b).root =
      .mk ⟨0⟩ (.element "div") b.nodes :: .mk i k cs ::
        (Node.preorderAll cs ++ Node.preorderAll ns) := by
    rw [Tree.preorder, node?_ofBuilder, e]
    rfl
  have hd : decide ((Node.mk i k cs).kind.blockIndex? = some index) = true := decide_eq_true hi
  rw [blockAt?, Tree.blockAt?, hp, List.find?_cons_of_neg (by simp [Kind.blockIndex?]),
    List.find?_cons, hd]
  rfl

theorem node?_of_head? {n : Node} (wf : (ofBuilder b).tree.WellFormed) (h : b.nodes.head? = some n) :
    (ofBuilder b).tree.node? n.id = some n := by
  refine Tree.node?_of_mem wf.nodup ?_
  have hm : n ∈ Node.preorderAll b.nodes := by
    have ⟨ns, e⟩ := List.head?_eq_some_iff.mp h
    rw [e, Node.preorderAll, List.mem_append]
    exact .inl (Node.mem_preorder_self n)
  simp [ofBuilder, Node.preorderAll, Node.preorder, hm]

end Document

namespace CommandLine

open Markup

theorem toList_enclosed (markup : String) :
    ("<div data-block-index=\"0\">" ++ markup ++ "</div>").toList =
      startTag "div" [("data-block-index", "0")] ++ (markup.toList ++ stopTag "div") := by
  have hs : "<div data-block-index=\"0\">".toList = startTag "div" [("data-block-index", "0")] := by
    simp [startTag, escapeQuoted, escapeChar]
  have ht : "</div>".toList = stopTag "div" := by simp [stopTag, isVoid, voidTags]
  rw [String.toList_append, String.toList_append, hs, ht, List.append_assoc]

theorem start_block : Builder.start ⟨[], [], 1⟩ "div" ([("data-block-index", "0")].map .ofText) false =
    (Builder.mk [] [] 2).within ⟨⟨1⟩, .block "div" 0 true, "div", []⟩ := by
  have hw : (Kind.block "div" 0 true).IsWritable := by
    simp [Kind.IsWritable, IsTag, Text.naturalBound]
  have hk : (Traits.ofAttributes ([("data-block-index", "0")].map .ofText)).kind "div" =
    .block "div" 0 true := Traits.kind_asElement hw rfl
  rw [Builder.start, if_neg (by decide), hk]
  rfl

-- The added block comes first. It holds what is read up to the first end tag that closes it.
theorem parse_enclosed {markup : String} {ts : List Token}
    (h : Token.ofText markup.toList = (ts, none)) :
    ∃ b, Document.parse ("<div data-block-index=\"0\">" ++ markup ++ "</div>") =
        .ok (.ofBuilder b) ∧
      b.nodes.head? = some (.mk ⟨1⟩ (.block "div" 0 true) (Node.shiftAll 1
        (Token.content (Token.mark markup.toList) (Token.splitStray "div" [] ts).1))) := by
  let e : OpenElement := ⟨⟨1⟩, .block "div" 0 true, "div", []⟩
  let start : Builder := .text ⟨[], [], 2⟩ (Token.mark markup.toList)
  have hm : ("<div data-block-index=\"0\">" ++ markup ++ "</div>").toList.head? ≠ some '\ufeff' := by
    rw [toList_enclosed]
    simp [startTag]
  have hr : parseAfter [] 1 ("<div data-block-index=\"0\">" ++ markup ++ "</div>") =
      ((ts.foldl Builder.add (start.within e)).stop "div", none) := by
    rw [Builder.parseAfter_eq_read [] 1 hm, toList_enclosed,
      Builder.read_startTag (by simp [IsTag]) (by simp [IsKey, isSpace]) (by simp), List.reverse_nil,
      start_block, Builder.read_between (by rw [h]), h, Builder.text_within]
  refine ⟨_, Document.parse_eq_ok_iff.mpr ⟨_, hr, rfl⟩, ?_⟩
  have hs : start = (Builder.text ⟨[], [], 1⟩ (Token.mark markup.toList)).shift 1 := by
    rw [← Builder.text_shift]
    rfl
  have ho : start.opened.map (·.tag) = [] := by rw [Builder.opened_text, List.map_nil]
  rw [Builder.nodes_stop, Builder.head?_nodes_foldl_within rfl rfl, ho, hs, Builder.foldl_shift,
    Builder.nodes_shift, Token.content]

theorem readDocument_bare {markup : String} {ts : List Token} {d : Document}
    (h : Document.parse markup = .ok d) (hb : (d.tree.preorder d.root).any isBlock = false)
    (ht : Token.ofText markup.toList = (ts, none)) :
    let content := Token.content (Token.mark markup.toList) (Token.splitStray "div" [] ts).1
    ∃ d', readDocument markup = .ok d' ∧ d'.blockAt? 0 = some ⟨1⟩ ∧
      d'.tree.innerMarkup ⟨1⟩ = String.ofList (Node.markupAll content) ∧
      d'.tree.lines ⟨1⟩ = Node.linesAmong content := by
  intro content
  obtain ⟨b, he, hn⟩ := parse_enclosed ht
  have hr : readDocument markup = .ok (.ofBuilder b) := by
    simp [readDocument, h, hb, he, bind, Except.bind]
  have wf : (Document.ofBuilder b).tree.WellFormed := (Document.wellFormed_of_parse he).left
  have hn' : (Document.ofBuilder b).tree.node? ⟨1⟩ = some _ := Document.node?_of_head? wf hn
  refine ⟨_, hr, Document.blockAt?_ofBuilder hn rfl, ?_, ?_⟩
  · rw [Tree.innerMarkup, hn', Option.map_some, Option.getD_some, Node.innerMarkup, Node.children_mk,
      Node.markupAll_shift]
  · rw [Tree.lines, hn', Option.map_some, Option.getD_some]
    exact Node.linesAmong_shiftAll 1 content

-- Markup without any block is read as the content of block 0, but only up to an end tag that closes
-- the block instead of an element of the markup. What comes after it is lost, if there is anything
-- but end tags. A byte order mark, which is not part of a text elsewhere, is content here.
theorem readBlock?_bare {s : Surroundings} {argument : String} {d : Document}
    (h : Document.parse (s.text argument) = .ok d)
    (hb : (d.tree.preorder d.root).any isBlock = false) :
    let cs := (s.text argument).toList
    let (kept, lost) := Token.splitStray "div" [] (Token.ofText cs).1
    let content := Token.content (Token.mark cs) kept
    ∃ d' block, readBlock? s ⟨argument, 0⟩ = some (d', block) ∧
      d'.tree.innerMarkup block = String.ofList (Node.markupAll content) ∧
      d'.tree.lines block = Node.linesAmong content ∧
      (Token.mark cs = [] →
        (d'.tree.innerMarkup block = d.innerMarkup ↔ ∀ t ∈ lost, t.shows = false) ∧
        ((∀ t ∈ lost, t.shows = false) → d'.tree.lines block = d.tree.lines d.root)) := by
  intro cs
  obtain ⟨b, hp, rfl⟩ := Document.parse_eq_ok_iff.mp h
  obtain ⟨ts, hts, rfl⟩ : ∃ ts, Token.ofText cs = (ts, none) ∧
      b = ts.foldl Builder.add ⟨[], [], 1⟩ := by
    rw [parseAfter] at hp
    exact ⟨_, Prod.ext rfl (congrArg (·.2) hp :), (congrArg (·.1) hp).symm⟩
  obtain ⟨d', hr, hi, hm, hl⟩ := readDocument_bare h hb hts
  rw [hts]
  refine ⟨d', ⟨1⟩, ?found, hm, hl, fun hc => ?same⟩
  case found => simp [readBlock?, hr, hi, Except.toOption]
  case same =>
    let b : Builder := (Token.splitStray "div" [] ts).1.foldl Builder.add ⟨[], [], 1⟩
    have hs : b.Sound [] 1 := Builder.sound_empty.foldl _
    have hb : ts.foldl Builder.add ⟨[], [], 1⟩ =
        (Token.splitStray "div" [] ts).2.foldl Builder.add b := by
      rw [← List.foldl_append, Token.splitStray_append]
    rw [hc] at hm hl
    rw [hm, hl, Document.innerMarkup_ofBuilder, Document.lines_ofBuilder, hb,
      String.ofList_inj]
    refine ⟨Builder.markupAll_foldl_eq_iff hs, fun hl => ?_⟩
    rw [Builder.nodes_foldl_of_not_shows hl]
    rfl

theorem readBlock?_bare_stray :
    let s : Surroundings := ⟨fun _ => none, ""⟩
    ∃ d, Document.parse (s.text "a</div>b") = .ok d ∧
      (d.tree.preorder d.root).any isBlock = false ∧ d.tree.lines d.root = ["ab"] ∧
      ∃ d' block, readBlock? s ⟨"a</div>b", 0⟩ = some (d', block) ∧
        d'.tree.innerMarkup block ≠ d.innerMarkup ∧ d'.tree.lines block = ["a"] := by
  intro s
  let b : Builder := ⟨[.mk ⟨1⟩ (.text "ab") []], [], 2⟩
  have ha : s.text "a</div>b" = "a</div>b" := if_neg (by decide)
  have ht : Token.ofText "a</div>b".toList =
      ([.text ['a'], .stop "div".toList, .text ['b']], none) := by rfl
  have hp : parseAfter [] 1 "a</div>b" = (b, none) := by
    rw [parseAfter, ht]
    simp [b, Builder.add, Builder.text, Builder.stop, Builder.leaf, Node.isText, Kind.isText,
      Node.appendText, Node.withKind, Kind.mapText]
  have h : Document.parse (s.text "a</div>b") = .ok (.ofBuilder b) :=
    Document.parse_eq_ok_iff.mpr ⟨b, ha ▸ hp, rfl⟩
  have hs : Token.splitStray "div" [] [.text ['a'], .stop "div".toList, .text ['b']] =
      ([.text ['a']], [.stop "div".toList, .text ['b']]) := by
    simp [Token.splitStray, Token.isStray, Token.track]
  obtain ⟨d', block, hr, -, hl, hm⟩ := readBlock?_bare h rfl
  rw [ha, ht, hs] at hl hm
  refine ⟨_, h, rfl, ?_, d', block, hr, mt (hm rfl).left.mp ?_, hl.trans ?_⟩
  · simp [Document.lines_ofBuilder, b, Builder.nodes, Builder.closeInnermost, Node.linesAmong,
      Node.flowAll, Node.flow, Kind.isText, Lines.ofKinds, Lines.extend]
  · intro hn
    simpa [Token.shows] using hn (.text ['b']) (by simp)
  · simp [Token.mark, Token.content, Builder.add, Builder.text, Builder.leaf, Builder.nodes,
      Builder.closeInnermost, Node.linesAmong, Node.flowAll, Node.flow, Kind.isText, Lines.ofKinds,
      Lines.extend]

end CommandLine

end RichText
