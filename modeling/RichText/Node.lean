import RichText.StyleSet

namespace RichText

structure NodeId where
  index : Nat
deriving DecidableEq, Repr, Inhabited

inductive Kind where
  | text (content : String)
  -- A trailing break is the surface's placeholder at the end of a block. It takes no offset.
  | lineBreak (trailing : Bool)
  | wrapper (styles : StyleSet)
  -- An embed is atomic: its text takes offsets but is never styled.
  | embed (tag : String)
  | block (tag : String) (index : Nat) (editable : Bool)
  | cell (tag : String) (index : Nat)
  | element (tag : String)
deriving DecidableEq

namespace Kind

def text? : Kind → Option String
  | text s => some s
  | _ => none

def styles? : Kind → Option StyleSet
  | wrapper s => some s
  | _ => none

def isText : Kind → Bool
  | text _ => true
  | _ => false

def isBreak : Kind → Bool
  | lineBreak _ => true
  | _ => false

def isWrapper : Kind → Bool
  | wrapper _ => true
  | _ => false

def isEmbed : Kind → Bool
  | embed _ => true
  | _ => false

def isCell : Kind → Bool
  | cell _ _ => true
  | _ => false

def blockIndex? : Kind → Option Nat
  | block _ index _ => some index
  | _ => none

def isEditableBlock : Kind → Bool
  | block _ _ editable => editable
  | _ => false

def isAtomic (k : Kind) : Bool :=
  k.isBreak || k.isEmbed

def textLength (k : Kind) : Nat :=
  (k.text?.map String.length).getD 0

def hasStyle (k : Kind) (tag : String) : Bool :=
  match k with
  | wrapper styles => tag ∈ styles
  | _ => false

def mapText (f : String → String) : Kind → Kind
  | text s => text (f s)
  | k => k

def mapStyles (f : StyleSet → StyleSet) : Kind → Kind
  | wrapper s => wrapper (f s)
  | k => k

end Kind

inductive Node where
  | mk (id : NodeId) (kind : Kind) (children : List Node)

namespace Node

def id : Node → NodeId
  | mk i _ _ => i

def kind : Node → Kind
  | mk _ k _ => k

def children : Node → List Node
  | mk _ _ cs => cs

@[simp]
theorem id_mk : (mk i k cs).id = i :=
  rfl

@[simp]
theorem kind_mk : (mk i k cs).kind = k :=
  rfl

@[simp]
theorem children_mk : (mk i k cs).children = cs :=
  rfl

theorem eta : (n : Node) → mk n.id n.kind n.children = n
  | mk _ _ _ => rfl

mutual

def decEq : (n₁ n₂ : Node) → Decidable (n₁ = n₂)
  | mk i k cs, mk i' k' cs' =>
    if h : i = i' ∧ k = k' then
      match decEqAll cs cs' with
      | isTrue h' => isTrue (by simp [h, h'])
      | isFalse h' => isFalse (by simp [h'])
    else
      isFalse fun e => by injection e; simp_all

def decEqAll : (ns₁ ns₂ : List Node) → Decidable (ns₁ = ns₂)
  | [], [] => isTrue rfl
  | _ :: _, [] | [], _ :: _ => isFalse (by simp)
  | n :: ns, n' :: ns' =>
    match decEq n n', decEqAll ns ns' with
    | isTrue h, isTrue h' => isTrue (by simp [h, h'])
    | isFalse h, _ => isFalse (by simp [h])
    | _, isFalse h => isFalse (by simp [h])

end

instance : DecidableEq Node :=
  decEq

def withKind (n : Node) (k : Kind) : Node :=
  mk n.id k n.children

def withChildren (n : Node) (cs : List Node) : Node :=
  mk n.id n.kind cs

def isText (n : Node) : Bool :=
  n.kind.isText

def isWrapper (n : Node) : Bool :=
  n.kind.isWrapper

def text (n : Node) : String :=
  n.kind.text?.getD ""

def takeText (n : Node) (offset : Nat) : Node :=
  n.withKind (n.kind.mapText fun s => String.ofList (s.toList.take offset))

def dropText (n : Node) (offset : Nat) (fresh : NodeId) : Node :=
  mk fresh (.text (String.ofList (n.text.toList.drop offset))) []

def appendText (n : Node) (s : String) : Node :=
  n.withKind (n.kind.mapText (· ++ s))

def prependText (n : Node) (s : String) : Node :=
  n.withKind (n.kind.mapText (s ++ ·))

-- The largest offset of a position in the node: chars of a text, children of anything else.
def extent (n : Node) : Nat :=
  if n.isText then n.kind.textLength else n.children.length

mutual

-- The node and all nodes beneath it, parents before children, in document order.
def preorder : Node → List Node
  | mk i k cs => mk i k cs :: preorderAll cs

def preorderAll : List Node → List Node
  | [] => []
  | n :: ns => n.preorder ++ preorderAll ns

end

theorem preorderAll_eq_flatMap (ns : List Node) : preorderAll ns = ns.flatMap preorder := by
  induction ns with
  | nil => rfl
  | cons n ns ih => simp [preorderAll, ih]

theorem mem_preorder_self (n : Node) : n ∈ n.preorder := by
  cases n
  simp [preorder]

theorem mem_preorder_of_child {n c m : Node} (h : c ∈ n.children) (hm : m ∈ c.preorder) :
    m ∈ n.preorder := by
  obtain ⟨i, k, cs⟩ := n
  simp only [preorder, preorderAll_eq_flatMap, List.mem_cons, List.mem_flatMap]
  exact .inr ⟨c, h, hm⟩

def ids (n : Node) : List NodeId :=
  n.preorder.map id

def idsAll (ns : List Node) : List NodeId :=
  (preorderAll ns).map id

def count (ns : List Node) : Nat :=
  (preorderAll ns).length

def textContent (n : Node) : String :=
  String.join (n.preorder.map text)

def textLength (n : Node) : Nat :=
  (n.preorder.map (·.kind.textLength)).foldr (· + ·) 0

mutual

-- The first node without children met by going to the first child again and again.
def firstLeaf : Node → Node
  | mk i k cs => firstLeafAmong (mk i k cs) cs

def firstLeafAmong (default : Node) : List Node → Node
  | [] => default
  | n :: _ => n.firstLeaf

end

mutual

def lastLeaf : Node → Node
  | mk i k cs => lastLeafAmong (mk i k cs) cs

def lastLeafAmong (default : Node) : List Node → Node
  | [] => default
  | n :: ns => lastLeafAmong n.lastLeaf ns

end

mutual

-- Puts a list of nodes in place of every node with the given id beneath this one.
def substitute (target : NodeId) (f : Node → List Node) : Node → List Node
  | mk i k cs => if i = target then f (mk i k cs) else [mk i k (substituteAll target f cs)]

def substituteAll (target : NodeId) (f : Node → List Node) : List Node → List Node
  | [] => []
  | n :: ns => n.substitute target f ++ substituteAll target f ns

end

theorem substituteAll_eq_flatMap (target : NodeId) (f : Node → List Node) (ns : List Node) :
    substituteAll target f ns = ns.flatMap (substitute target f) := by
  induction ns with
  | nil => rfl
  | cons n ns ih => simp [substituteAll, ih]

end RichText.Node
