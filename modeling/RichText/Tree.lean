import RichText.Location

namespace RichText

-- All nodes ever made, as trees beside one another. A detached node is the top of a tree of its
-- own, so a node is never lost, and the number of nodes made so far is the id of the next one.
structure Tree where
  roots : List Node
  made : Nat
deriving DecidableEq

namespace Tree

def empty : Tree where
  roots := []
  made := 0

variable (t : Tree)

-- Every node that was made is there exactly once.
structure WellFormed : Prop where
  nodup : (Node.idsAll t.roots).Nodup
  mem_iff : ∀ i, i ∈ Node.idsAll t.roots ↔ i.index < t.made

def locate? (id : NodeId) : Option Location :=
  t.roots.findSome? (·.locate? id)

def rootOf? (id : NodeId) : Option Node :=
  t.roots.find? fun n => (n.locate? id).isSome

def node? (id : NodeId) : Option Node :=
  (t.locate? id).map Location.node

def kind? (id : NodeId) : Option Kind :=
  (t.node? id).map Node.kind

def children (id : NodeId) : List Node :=
  ((t.node? id).map Node.children).getD []

def parent? (id : NodeId) : Option NodeId :=
  (t.locate? id).bind Location.parent?

def lineage (id : NodeId) : List (NodeId × Kind) :=
  ((t.locate? id).map Location.lineage).getD []

def ancestors (id : NodeId) : List NodeId :=
  ((t.locate? id).map (·.ancestors.map Prod.fst)).getD []

def contains (upper lower : NodeId) : Bool :=
  (t.lineage lower).any (·.1 = upper)

def preorder (id : NodeId) : List Node :=
  ((t.node? id).map Node.preorder).getD []

def textContent (id : NodeId) : String :=
  ((t.node? id).map Node.textContent).getD ""

def commonAncestor? (a b : NodeId) : Option NodeId :=
  ((t.lineage a).map Prod.fst).find? (t.contains · b)

def nextLeaf? (scope id : NodeId) : Option NodeId :=
  (t.locate? id).bind fun l => (l.nextLeaf? scope).map Node.id

def prevLeaf? (scope id : NodeId) : Option NodeId :=
  (t.locate? id).bind fun l => (l.prevLeaf? scope).map Node.id

def embedBelow? (scope id : NodeId) : Option NodeId :=
  (t.locate? id).bind (·.embedBelow? scope)

end RichText.Tree
