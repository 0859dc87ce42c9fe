import RichText.Proofs.Spliced

namespace RichText

namespace Node

mutual

def shift (k : Nat) : Node → Node
  | mk i kind cs => mk ⟨i.index + k⟩ kind (shiftAll k cs)

def shiftAll (k : Nat) : List Node → List Node
  | [] => []
  | n :: ns => n.shift k :: shiftAll k ns

end

variable {k : Nat}

@[simp]
theorem kind_shift (n : Node) : (n.shift k).kind = n.kind := by
  cases n
  rfl

theorem appendText_shift (n : Node) (s : String) :
    (n.shift k).appendText s = (n.appendText s).shift k := by
  cases n
  rfl

theorem shiftAll_eq_map (ns : List Node) : shiftAll k ns = ns.map (shift k) := by
  induction ns with
  | nil => rfl
  | cons n ns ih => rw [shiftAll, ih, List.map_cons]

theorem shiftAll_reverse (ns : List Node) : shiftAll k ns.reverse = (shiftAll k ns).reverse := by
  rw [shiftAll_eq_map, shiftAll_eq_map, List.map_reverse]

mutual

theorem markup_shift (n : Node) : (n.shift k).markup = n.markup := by
  have ⟨i, kind, cs⟩ := n
  cases kind <;> simp [shift, markup, markupAll_shift cs]

theorem markupAll_shift (ns : List Node) : markupAll (shiftAll k ns) = markupAll ns := by
  match ns with
  | [] => rfl
  | n :: ns => rw [shiftAll, markupAll, markup_shift n, markupAll_shift ns, markupAll]

end

mutual

theorem flow_shift (n : Node) : (n.shift k).flow.map kind = n.flow.map kind := by
  have ⟨i, kind, cs⟩ := n
  rw [shift, flow, flow]
  split
  case isTrue => rfl
  case isFalse => rw [List.map_cons, List.map_cons, flowAll_shift cs, kind_mk, kind_mk]

theorem flowAll_shift (ns : List Node) : (flowAll (shiftAll k ns)).map kind = (flowAll ns).map kind := by
  match ns with
  | [] => rfl
  | n :: ns =>
    rw [shiftAll, flowAll, List.map_append, flow_shift n, flowAll_shift ns, flowAll, List.map_append]

end

end Node

namespace Markup

open Node (shiftAll markupAll)

namespace Token

-- The tags of the elements that are open after a token, innermost first.
def track (tags : List String) : Token → List String
  | text _ => tags
  | start name _ isClosed =>
    if isClosed || isVoid (String.ofList name) then tags else String.ofList name :: tags
  | stop name =>
    if String.ofList name ∈ tags then (tags.dropWhile (· ≠ String.ofList name)).tail else tags

-- An end tag that closes none of the elements that are open.
def isStray (tag : String) (tags : List String) : Token → Bool
  | stop name => String.ofList name = tag && !tags.contains tag
  | _ => false

def splitStray (tag : String) (tags : List String) : List Token → List Token × List Token
  | [] => ([], [])
  | t :: ts =>
    if t.isStray tag tags then ([], t :: ts)
    else
      let (kept, lost) := splitStray tag (t.track tags) ts
      (t :: kept, lost)

theorem splitStray_append (tag : String) (tags : List String) (ts : List Token) :
    (splitStray tag tags ts).1 ++ (splitStray tag tags ts).2 = ts := by
  induction ts generalizing tags with
  | nil => rfl
  | cons t ts ih =>
    rw [splitStray]
    split
    case isTrue => rfl
    case isFalse => exact congrArg (t :: ·) (ih _)

end Token

def OpenElement.shift (k : Nat) (e : OpenElement) : OpenElement :=
  { e with id := ⟨e.id.index + k⟩, before := shiftAll k e.before }

namespace Builder

variable {b : Builder} {k : Nat}

def shift (k : Nat) (b : Builder) : Builder where
  current := shiftAll k b.current
  opened := b.opened.map (OpenElement.shift k)
  next := b.next + k

theorem leaf_shift (kind : Kind) : (b.shift k).leaf kind = (b.leaf kind).shift k := by
  simp [leaf, shift, Node.shiftAll, Node.shift, Nat.add_right_comm]

theorem text_shift (content : List Char) : (b.shift k).text content = (b.text content).shift k := by
  by_cases hc : content = []
  case pos => simp [hc]
  case neg =>
    obtain ⟨current, opened, next⟩ := b
    rw [text_of_ne_nil hc, text_of_ne_nil hc]
    cases current with
    | nil => exact leaf_shift _
    | cons n ns =>
      have hn : (n.shift k).isText = n.isText := by simp [Node.isText]
      simp only [shift, shiftAll, hn]
      split
      case isTrue => simp [shiftAll, Node.appendText_shift]
      case isFalse => exact leaf_shift (b := ⟨n :: ns, opened, next⟩) _

theorem start_shift (tag : String) (attributes : List Attribute) (isClosed : Bool) :
    (b.shift k).start tag attributes isClosed = (b.start tag attributes isClosed).shift k := by
  rw [start, start]
  split
  case isTrue => exact leaf_shift _
  case isFalse => simp [shift, OpenElement.shift, shiftAll, Nat.add_right_comm]

theorem closeInnermost_shift (current : List Node) (es : List OpenElement) :
    closeInnermost (shiftAll k current) (es.map (OpenElement.shift k)) =
      shiftAll k (closeInnermost current es) := by
  induction es generalizing current with
  | nil => rfl
  | cons e es ih =>
    rw [List.map_cons, closeInnermost, closeInnermost, ← ih, shiftAll, Node.shift,
      Node.shiftAll_reverse]
    rfl

theorem stop_shift (tag : String) : (b.shift k).stop tag = (b.stop tag).shift k := by
  have ht (es : List OpenElement) : (es.map (OpenElement.shift k)).map (·.tag) = es.map (·.tag) := by
    simp [OpenElement.shift]
  by_cases h : tag ∈ b.opened.map (·.tag)
  case neg => rw [stop_of_not_mem h, stop_of_not_mem ((ht _).symm ▸ h)]
  case pos =>
    obtain ⟨inner, e, outer, ho, rfl, hi⟩ := exists_opened h
    have ho' : (b.shift k).opened =
        inner.map (OpenElement.shift k) ++ e.shift k :: outer.map (OpenElement.shift k) := by
      simp [shift, ho]
    have hc := closeInnermost_shift (k := k) b.current (inner ++ [e])
    rw [List.map_append] at hc
    rw [stop_of_opened ho hi]
    refine (stop_of_opened (e := e.shift k) ho' ((ht _).symm ▸ hi)).trans ?_
    exact congrArg (Builder.mk · _ _) hc

theorem foldl_shift (ts : List Token) :
    ts.foldl add (b.shift k) = (ts.foldl add b).shift k := by
  induction ts generalizing b with
  | nil => rfl
  | cons t ts ih =>
    have ht : (b.shift k).add t = (b.add t).shift k := by
      cases t with
      | text content => exact text_shift content
      | start name attributes isClosed => exact start_shift _ attributes isClosed
      | stop name => exact stop_shift _
    rw [List.foldl_cons, ht, ih, List.foldl_cons]

theorem nodes_shift : (b.shift k).nodes = shiftAll k b.nodes := by
  rw [nodes, nodes, Node.shiftAll_reverse, ← closeInnermost_shift]
  rfl

section Within

variable {e : OpenElement}

def within (e : OpenElement) (b : Builder) : Builder :=
  { b with opened := b.opened ++ [e] }

theorem closeInnermost_append (current : List Node) (es es' : List OpenElement) :
    closeInnermost current (es ++ es') = closeInnermost (closeInnermost current es) es' := by
  induction es generalizing current with
  | nil => rfl
  | cons e es ih => exact ih _

theorem text_within (content : List Char) :
    (b.within e).text content = (b.text content).within e := by
  obtain ⟨current, opened, next⟩ := b
  unfold text
  split
  case isTrue => rfl
  case isFalse =>
    cases current with
    | nil => rfl
    | cons n ns =>
      simp only [within]
      split <;> rfl

theorem start_within (tag : String) (attributes : List Attribute) (isClosed : Bool) :
    (b.within e).start tag attributes isClosed = (b.start tag attributes isClosed).within e := by
  unfold start
  split <;> rfl

theorem stop_within {tag : String} (h : e.tag = tag → tag ∈ b.opened.map (·.tag)) :
    (b.within e).stop tag = (b.stop tag).within e := by
  by_cases hm : tag ∈ b.opened.map (·.tag)
  case neg =>
    have hn : tag ∉ (b.within e).opened.map (·.tag) := by
      rw [within, List.map_append, List.mem_append]
      exact fun hb => hb.elim hm fun he => mt h hm (List.mem_singleton.mp he).symm
    rw [stop_of_not_mem hm, stop_of_not_mem hn]
  case pos =>
    obtain ⟨inner, e', outer, ho, rfl, hi⟩ := exists_opened hm
    have ho' : (b.within e).opened = inner ++ e' :: (outer ++ [e]) := by simp [within, ho]
    rw [stop_of_opened ho hi, stop_of_opened ho' hi]
    rfl

theorem stop_within_stray (h : e.tag ∉ b.opened.map (·.tag)) :
    (b.within e).stop e.tag = ⟨.mk e.id e.kind b.nodes :: e.before, [], b.next⟩ := by
  have ho : (b.within e).opened = b.opened ++ e :: [] := rfl
  rw [stop_of_opened ho h, within, closeInnermost_append]
  rfl

theorem nodes_within : (b.within e).nodes = e.before.reverse ++ [.mk e.id e.kind b.nodes] := by
  rw [nodes, within, closeInnermost_append, closeInnermost, closeInnermost, List.reverse_cons]
  rfl

theorem track_add (t : Token) : (b.add t).opened.map (·.tag) = t.track (b.opened.map (·.tag)) := by
  cases t with
  | text content =>
    exact congrArg (List.map (·.tag)) (opened_text content)
  | start name attributes isClosed =>
    rw [add, start, Token.track]
    split <;> rfl
  | stop name =>
    rw [add, Token.track]
    split
    case isFalse h => rw [stop_of_not_mem h]
    case isTrue h =>
      obtain ⟨inner, e, outer, ho, he, hi⟩ := exists_opened h
      have hw : ∀ x ∈ inner.map (·.tag), decide (x ≠ e.tag) = true := fun x hx =>
        decide_eq_true fun e' => hi (e' ▸ hx)
      rw [← he, stop_of_opened ho hi, ho, List.map_append, List.map_cons,
        List.dropWhile_append_of_pos hw]
      simp

theorem add_within {t : Token} (h : t.isStray e.tag (b.opened.map (·.tag)) = false) :
    (b.within e).add t = (b.add t).within e := by
  cases t with
  | text content => exact text_within content
  | start name attributes isClosed => exact start_within _ attributes isClosed
  | stop name =>
    refine stop_within fun he => ?_
    simpa [Token.isStray, ← he] using h

-- Nothing can be added to what a builder starts with: a node that is not open and no text.
def bottom (b : Builder) : List Node :=
  (b.opened.getLast?.map (·.before)).getD b.current

theorem head?_nodes {n : Node} (h : b.bottom.getLast? = some n) : b.nodes.head? = some n := by
  rw [nodes, List.head?_reverse]
  rw [bottom] at h
  cases hl : b.opened.getLast? with
  | none =>
    rw [hl] at h
    rwa [List.getLast?_eq_none_iff.mp hl]
  | some e =>
    obtain ⟨es, he⟩ := List.getLast?_eq_some_iff.mp hl
    rw [hl] at h
    rw [he, closeInnermost_append, closeInnermost, closeInnermost, List.getLast?_cons]
    simp only [Option.map_some, Option.getD_some] at h
    rw [h]
    rfl

section Bottom

variable {n : Node}

theorem bottom_leaf (h : b.bottom.getLast? = some n) (k : Kind) :
    (b.leaf k).bottom.getLast? = some n := by
  rw [bottom] at h ⊢
  cases hl : b.opened.getLast? with
  | none =>
    have hc : b.current.getLast? = some n := by simpa [hl] using h
    simp [Builder.leaf, hl, List.getLast?_cons, hc]
  | some e => simpa [Builder.leaf, hl] using h

-- A text can be added to the node read last, which is the first one only if that is a text too.
theorem bottom_text (hn : n.isText = false) (h : b.bottom.getLast? = some n) (content : List Char) :
    (b.text content).bottom.getLast? = some n := by
  obtain ⟨-, e⟩ | ⟨m, ms, hc, hm, -, e⟩ | ⟨-, -, e⟩ := b.text_cases content <;> rw [e]
  case inl => exact h
  case inr.inl =>
    rw [bottom] at h ⊢
    cases hl : b.opened.getLast? with
    | some e => simpa [hl] using h
    | none =>
      rw [hl, hc] at h
      cases ms with
      | nil =>
        obtain rfl : m = n := by simpa using h
        simp [hn] at hm
      | cons m' ms => simpa using h
  case inr.inr => exact bottom_leaf h _

theorem bottom_start (h : b.bottom.getLast? = some n) (tag : String)
    (attributes : List Attribute) (isClosed : Bool) :
    (b.start tag attributes isClosed).bottom.getLast? = some n := by
  rw [start]
  split
  case isTrue => exact bottom_leaf h _
  case isFalse =>
    rw [bottom] at h ⊢
    cases hl : b.opened.getLast? with
    | none => simpa [List.getLast?_cons, hl] using h
    | some e => simpa [List.getLast?_cons, hl] using h

theorem bottom_stop (h : b.bottom.getLast? = some n) (tag : String) :
    (b.stop tag).bottom.getLast? = some n := by
  obtain ⟨-, e⟩ | ⟨inner, e, outer, ho, -, -, hs⟩ := b.stop_cases tag
  case inl => rwa [e]
  case inr =>
    rw [bottom, ho] at h
    rw [hs, bottom]
    cases hl : outer.getLast? with
    | some e' => simpa [List.getLast?_cons, hl] using h
    | none =>
      have hb : e.before.getLast? = some n := by simpa [List.getLast?_cons, hl] using h
      simp [closeInnermost_append, closeInnermost, List.getLast?_cons, hb]

theorem bottom_add (hn : n.isText = false) (h : b.bottom.getLast? = some n) (t : Token) :
    (b.add t).bottom.getLast? = some n := by
  cases t with
  | text content => exact bottom_text hn h content
  | start name attributes isClosed => exact bottom_start h _ attributes isClosed
  | stop name => exact bottom_stop h _

theorem bottom_foldl (hn : n.isText = false) (h : b.bottom.getLast? = some n) (ts : List Token) :
    (ts.foldl add b).bottom.getLast? = some n := by
  induction ts generalizing b with
  | nil => exact h
  | cons t ts ih => exact ih (bottom_add hn h t)

end Bottom

-- An element holds what is read up to the end tag that closes it. It comes first among the nodes read.
theorem head?_nodes_foldl_within (hk : e.kind.isText = false) (he : e.before = []) (ts : List Token) :
    (ts.foldl add (b.within e)).nodes.head? = some (.mk e.id e.kind
      ((Token.splitStray e.tag (b.opened.map (·.tag)) ts).1.foldl add b).nodes) := by
  induction ts generalizing b with
  | nil =>
    rw [List.foldl_nil, nodes_within, he]
    rfl
  | cons t ts ih =>
    rw [Token.splitStray]
    split
    case isFalse h =>
      rw [List.foldl_cons, add_within (by simpa using h), ih, track_add]
      rfl
    case isTrue h =>
      match t with
      | .stop name =>
        have ⟨hn, ht⟩ : String.ofList name = e.tag ∧ e.tag ∉ b.opened.map (·.tag) := by
          simpa [Token.isStray] using h
        rw [List.foldl_cons, add, hn, stop_within_stray ht, he]
        have hn : (Node.mk e.id e.kind b.nodes).isText = false := hk
        exact head?_nodes (bottom_foldl hn rfl ts)

end Within

end Builder

end Markup

end RichText
