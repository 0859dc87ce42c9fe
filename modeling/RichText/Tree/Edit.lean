import RichText.Tree

namespace RichText.Tree

def create (t : Tree) (kind : Kind) : NodeId × Tree :=
  (⟨t.made⟩, { roots := t.roots ++ [.mk ⟨t.made⟩ kind []], made := t.made + 1 })

def substitute (t : Tree) (id : NodeId) (f : Node → List Node) : Tree :=
  { t with roots := Node.substituteAll id f t.roots }

def modify (t : Tree) (id : NodeId) (f : Node → Node) : Tree :=
  t.substitute id fun n => [f n]

def modifyChildren (t : Tree) (id : NodeId) (f : List Node → List Node) : Tree :=
  t.modify id fun n => n.withChildren (f n.children)

def setKind (t : Tree) (id : NodeId) (kind : Kind) : Tree :=
  t.modify id (·.withKind kind)

-- Texts only: other nodes stay as they are.
def mapText (t : Tree) (id : NodeId) (f : String → String) : Tree :=
  t.modify id fun n => n.withKind (n.kind.mapText f)

def mapStyles (t : Tree) (id : NodeId) (f : StyleSet → StyleSet) : Tree :=
  t.modify id fun n => n.withKind (n.kind.mapStyles f)

def detach (t : Tree) (id : NodeId) : Tree :=
  match t.locate? id with
  | some ⟨n, _ :: _⟩ => { t with roots := Node.substituteAll id (fun _ => []) t.roots ++ [n] }
  | _ => t

-- Moves a node under a parent, before the child that has the given index once the node is gone from
-- its old place, or to the end. A node is never moved beneath itself.
def insert (t : Tree) (parent : NodeId) (index : Nat) (child : NodeId) : Tree :=
  match t.node? parent, t.node? child with
  | some _, some n =>
    if t.contains child parent then t
    else
      (t.substitute child fun _ => []).modifyChildren parent fun cs =>
        cs.take index ++ n :: cs.drop index
  | _, _ => t

def append (t : Tree) (parent child : NodeId) : Tree :=
  t.insert parent (t.children parent).length child

-- Moves a node right before another one, or detaches it if that one has no parent.
def insertBefore (t : Tree) (reference child : NodeId) : Tree :=
  let t := t.detach child
  match t.locate? reference with
  | some ⟨_, f :: _⟩ => t.insert f.id f.before.length child
  | _ => t

-- Moves a node right after another one, or detaches it if that one has no parent.
def insertAfter (t : Tree) (reference child : NodeId) : Tree :=
  let t := t.detach child
  match t.locate? reference with
  | some ⟨_, f :: _⟩ => t.insert f.id (f.before.length + 1) child
  | _ => t

-- Cuts a text after its first `offset` chars. The new text, with the rest, stands right after the
-- old one, detached if that is. Nothing happens to a node that is no text, and it is its own rest.
def splitText (t : Tree) (id : NodeId) (offset : Nat) : NodeId × Tree :=
  match t.node? id with
  | some n =>
    if n.isText then
      let t' := t.substitute id fun n => [n.takeText offset, n.dropText offset ⟨t.made⟩]
      (⟨t.made⟩, { t' with made := t.made + 1 })
    else (id, t)
  | none => (id, t)

-- Puts the children of a node in its place. A node without parent stays as it is.
def unwrap (t : Tree) (id : NodeId) : Tree :=
  match t.locate? id with
  | some ⟨n, _ :: _⟩ =>
    { t with roots := Node.substituteAll id Node.children t.roots ++ [n.withChildren []] }
  | _ => t

-- Moves a node and the siblings after it, in order, to the end of another node.
def moveRun (t : Tree) (first target : NodeId) : Tree :=
  match t.locate? first with
  | some ⟨_, path⟩ =>
    let rest := (path.head?.map fun f => f.after.map Node.id).getD []
    (first :: rest).foldl (fun t id => t.append target id) t
  | none => t

end RichText.Tree
