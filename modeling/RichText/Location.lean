import RichText.Node

namespace RichText

structure Frame where
  id : NodeId
  kind : Kind
  -- Nearest first.
  before : List Node
  after : List Node

namespace Frame

def plug (f : Frame) (n : Node) : Node :=
  .mk f.id f.kind (f.before.reverse ++ n :: f.after)

end Frame

-- A node together with the steps that lead from it to the top of its tree.
structure Location where
  node : Node
  path : List Frame

namespace Location

def top (l : Location) : Node :=
  l.path.foldl (fun n f => f.plug n) l.node

end Location

namespace Node

mutual

def locateFrom (target : NodeId) (path : List Frame) : Node → Option Location
  | mk i k cs =>
    if i = target then some ⟨mk i k cs, path⟩
    else locateAmong target path i k [] cs

def locateAmong (target : NodeId) (path : List Frame) (i : NodeId) (k : Kind) (before : List Node) :
    List Node → Option Location
  | [] => none
  | n :: ns =>
    match n.locateFrom target (⟨i, k, before, ns⟩ :: path) with
    | some l => some l
    | none => locateAmong target path i k (n :: before) ns

end

def locate? (n : Node) (target : NodeId) : Option Location :=
  n.locateFrom target []

mutual

theorem locateFrom_sound (n : Node) (h : n.locateFrom target path = some l) :
    l.node.id = target ∧ l.top = (Location.mk n path).top := by
  obtain ⟨i, k, cs⟩ := n
  rw [locateFrom] at h
  split at h
  case isTrue hi => cases h; exact ⟨hi, rfl⟩
  case isFalse => simpa using locateAmong_sound cs h

theorem locateAmong_sound (ns : List Node) (h : locateAmong target path i k before ns = some l) :
    l.node.id = target ∧ l.top = (Location.mk (.mk i k (before.reverse ++ ns)) path).top := by
  match ns with
  | [] => simp [locateAmong] at h
  | n :: ns =>
    rw [locateAmong] at h
    split at h
    case h_1 l' h' =>
      cases h
      exact locateFrom_sound n h'
    case h_2 => simpa using locateAmong_sound ns h

end

theorem id_of_locate? {n : Node} (h : n.locate? target = some l) : l.node.id = target :=
  (locateFrom_sound n h).left

theorem top_of_locate? {n : Node} (h : n.locate? target = some l) : l.top = n :=
  (locateFrom_sound n h).right

mutual

theorem locateFrom_isSome (n : Node) :
    (n.locateFrom target path).isSome ↔ target ∈ n.ids := by
  obtain ⟨i, k, cs⟩ := n
  rw [locateFrom]
  split
  case isTrue h => simp [h, ids, preorder]
  case isFalse h =>
    rw [locateAmong_isSome cs]
    simp [idsAll, ids, preorder, Ne.symm h]

theorem locateAmong_isSome (ns : List Node) :
    (locateAmong target path i k before ns).isSome ↔ target ∈ idsAll ns := by
  match ns with
  | [] => simp [locateAmong, idsAll, preorderAll]
  | n :: ns =>
    have hn : (n.locateFrom target (⟨i, k, before, ns⟩ :: path)).isSome ↔ target ∈ n.ids :=
      locateFrom_isSome n
    rw [locateAmong]
    split
    case h_1 l h => simp_all [ids, idsAll, preorderAll]
    case h_2 h =>
      rw [locateAmong_isSome ns]
      simp_all [ids, idsAll, preorderAll]

end

theorem locate?_isSome_iff {n : Node} : (n.locate? target).isSome ↔ target ∈ n.ids :=
  locateFrom_isSome n

end Node

namespace Location

def ancestors (l : Location) : List (NodeId × Kind) :=
  l.path.map fun f => (f.id, f.kind)

def lineage (l : Location) : List (NodeId × Kind) :=
  (l.node.id, l.node.kind) :: l.ancestors

def parent? (l : Location) : Option NodeId :=
  l.path.head?.map Frame.id

def index? (l : Location) : Option Nat :=
  l.path.head?.map (·.before.length)

def next? (l : Location) : Option Node :=
  l.path.head?.bind (·.after.head?)

def prev? (l : Location) : Option Node :=
  l.path.head?.bind (·.before.head?)

def child? (l : Location) (index : Nat) : Option Location :=
  l.node.children[index]?.map fun n => {
    node := n
    path := {
      id := l.node.id
      kind := l.node.kind
      before := (l.node.children.take index).reverse
      after := l.node.children.drop (index + 1)
    } :: l.path
  }

-- The nearest location at or after this one, among its siblings, that satisfies `p`.
def seekRight (p : Node → Bool) : Location → Option Location
  | ⟨n, []⟩ => if p n then some ⟨n, []⟩ else none
  | ⟨n, f :: path⟩ => go f path f.before n f.after
where
  go (f : Frame) (path : List Frame) (before : List Node) (n : Node) : List Node → Option Location
    | [] => if p n then some ⟨n, { f with before, after := [] } :: path⟩ else none
    | m :: ms =>
      if p n then some ⟨n, { f with before, after := m :: ms } :: path⟩
      else go f path (n :: before) m ms

-- The nearest location at or before this one, among its siblings, that satisfies `p`.
def seekLeft (p : Node → Bool) : Location → Option Location
  | ⟨n, []⟩ => if p n then some ⟨n, []⟩ else none
  | ⟨n, f :: path⟩ => go f path f.after n f.before
where
  go (f : Frame) (path : List Frame) (after : List Node) (n : Node) : List Node → Option Location
    | [] => if p n then some ⟨n, { f with before := [], after } :: path⟩ else none
    | m :: ms =>
      if p n then some ⟨n, { f with before := m :: ms, after } :: path⟩
      else go f path (n :: after) m ms

-- The leaf after the node, in document order, that a climb finds before it reaches `scope`.
def nextLeaf? (scope : NodeId) (l : Location) : Option Node :=
  climb l.node.id l.path
where
  climb (current : NodeId) : List Frame → Option Node
    | [] => none
    | f :: path =>
      if current = scope then none
      else match f.after with
        | n :: _ => some n.firstLeaf
        | [] => climb f.id path

-- The leaf before the node, in document order, that a climb finds before it reaches `scope`.
def prevLeaf? (scope : NodeId) (l : Location) : Option Node :=
  climb l.node.id l.path
where
  climb (current : NodeId) : List Frame → Option Node
    | [] => none
    | f :: path =>
      if current = scope then none
      else match f.before with
        | n :: _ => some n.lastLeaf
        | [] => climb f.id path

def embedBelow? (scope : NodeId) (l : Location) : Option NodeId :=
  ((l.ancestors.takeWhile (·.1 ≠ scope)).find? (·.2.isEmbed)).map (·.1)

end RichText.Location
