import RichText.Markup.Element
import RichText.Markup.Token
import RichText.Tree.Edit

namespace RichText

namespace Markup

-- An element whose end has not been read, with the siblings before it, nearest first.
structure OpenElement where
  id : NodeId
  kind : Kind
  tag : String
  before : List Node

-- What has been read: the children of the innermost open element, nearest first, and that element.
structure Builder where
  current : List Node
  opened : List OpenElement
  next : Nat

namespace Builder

variable (b : Builder)

def leaf (kind : Kind) : Builder :=
  { b with current := .mk ⟨b.next⟩ kind [] :: b.current, next := b.next + 1 }

def text (content : List Char) : Builder :=
  if content.isEmpty then b
  else match b.current with
    | n :: ns =>
      if n.isText then { b with current := n.appendText (String.ofList content) :: ns }
      else b.leaf (.text (String.ofList content))
    | [] => b.leaf (.text (String.ofList content))

def start (tag : String) (attributes : List Attribute) (isClosed : Bool) : Builder :=
  let kind := (Traits.ofAttributes attributes).kind tag
  if isClosed || isVoid tag then b.leaf kind
  else
    { current := [], opened := ⟨⟨b.next⟩, kind, tag, b.current⟩ :: b.opened, next := b.next + 1 }

-- The children of the innermost open element once the first `depth` of them are closed.
def closeInnermost (current : List Node) : List OpenElement → List Node
  | [] => current
  | e :: es => closeInnermost (.mk e.id e.kind current.reverse :: e.before) es

-- Closes the innermost open element with a tag and those in it, if there is one.
def stop (tag : String) : Builder :=
  let inner := b.opened.takeWhile (·.tag ≠ tag)
  match b.opened.dropWhile (·.tag ≠ tag) with
  | e :: outer => { b with current := closeInnermost b.current (inner ++ [e]), opened := outer }
  | [] => b

def add (b : Builder) : Token → Builder
  | .text content => b.text content
  | .start name attributes isClosed => b.start (String.ofList name) attributes isClosed
  | .stop name => b.stop (String.ofList name)

def nodes : List Node :=
  (closeInnermost b.current b.opened).reverse

end Builder

-- Nodes read from markup after some siblings, and what stopped the reading before the end.
def parseAfter (before : List Node) (next : Nat) (markup : String) : Builder × Option MarkupError :=
  let (tokens, e) := Token.ofText markup.toList
  (tokens.foldl Builder.add ⟨before.reverse, [], next⟩, e)

end Markup

namespace Tree

-- Adds nodes read from markup to the children of a node. What was read before an error stays.
def parseInto (t : Tree) (parent : NodeId) (markup : String) : Tree × Option Markup.MarkupError :=
  let (b, e) := Markup.parseAfter (t.children parent) t.made markup
  ({ t.modifyChildren parent fun _ => b.nodes with made := b.next }, e)

end Tree

end RichText
