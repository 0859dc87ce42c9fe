import RichText.Canonical

namespace RichText

-- The children of a block while it is restyled, with the nodes taken out so far.
structure Draft where
  content : List Node
  dropped : List Node
  -- The number of the next new node.
  next : Nat

namespace Draft

variable (d : Draft)

def node? (id : NodeId) : Option Node :=
  (Node.preorderAll d.content).find? (·.id = id)

def textLength (id : NodeId) : Nat :=
  ((d.node? id).map (·.kind.textLength)).getD 0

def holder? (child : NodeId) : Option Node :=
  d.content.find? (·.children.any (·.id = child))

def substitute (id : NodeId) (f : Node → List Node) : Draft :=
  { d with content := Node.substituteAll id f d.content }

def splitText (leaf : NodeId) (offset : Nat) : NodeId × Draft :=
  let fresh : NodeId := ⟨d.next⟩
  (fresh, { d.substitute leaf fun n => [n.takeText offset, n.dropText offset fresh] with
    next := d.next + 1 })

def next? (id : NodeId) : Option NodeId :=
  (d.content.dropWhile (·.id ≠ id)).tail.head?.map Node.id

def prev? (id : NodeId) : Option NodeId :=
  if d.content.any (·.id = id) then (d.content.takeWhile (·.id ≠ id)).getLast?.map Node.id
  else none

end Draft

namespace Node

-- The siblings up to and including the one with the given id, and those after it.
def through (last : NodeId) : List Node → List Node × List Node
  | [] => ([], [])
  | n :: ns =>
    if n.id = last then ([n], ns)
    else
      let (inside, after) := through last ns
      (n :: inside, after)

-- Siblings before the first id, from there through the last id, and after that.
def segment (first last : NodeId) (ns : List Node) : List Node × List Node × List Node :=
  (ns.takeWhile (·.id ≠ first), through last (ns.dropWhile (·.id ≠ first)))

-- The children before one of them, that child if it is there, and those after it.
def childrenAround (n : Node) (child : NodeId) : List Node × Option Node × List Node :=
  let rest := n.children.dropWhile (·.id ≠ child)
  (n.children.takeWhile (·.id ≠ child), rest.head?, rest.tail)

def copyAround (n : Node) (fresh : NodeId) (cs : List Node) : Node :=
  mk fresh (.wrapper (n.kind.styles?.getD ∅)) cs

def addStyle (n : Node) (tag : String) : Node :=
  n.withKind (n.kind.mapStyles (·.insert tag))

def removeStyle (n : Node) (tag : String) : Node :=
  n.withKind (n.kind.mapStyles (·.erase tag))

end Node

namespace Tree

def redraft (t : Tree) (block : NodeId) (f : Draft → Draft) : Tree :=
  let d := f ⟨t.children block, [], t.made⟩
  { t.replaceChildren block ⟨d.content, d.dropped⟩ with made := d.next }

end Tree

end RichText
