import RichText.Markup.Parse
import RichText.Markup.Print
import RichText.Selection

namespace RichText

namespace Tree

def innerMarkup (t : Tree) (id : NodeId) : String :=
  ((t.node? id).map Node.innerMarkup).getD ""

end Tree

structure Document where
  tree : Tree
  root : NodeId

namespace Document

def empty : Document :=
  let (root, tree) := Tree.empty.create (.element "div")
  { tree, root }

def parse (markup : String) : Except Markup.MarkupError Document :=
  match empty.tree.parseInto empty.root markup with
  | (tree, none) => .ok { empty with tree }
  | (_, some e) => .error e

def innerMarkup (d : Document) : String :=
  d.tree.innerMarkup d.root

def blockAt? (d : Document) (index : Nat) : Option NodeId :=
  d.tree.blockAt? d.root index

end Document

end RichText
