import RichText.Tree.Edit

namespace RichText

-- What a pass makes of a list of siblings: those that stay, and those that it takes out.
structure Pass where
  kept : List Node
  dropped : List Node

namespace Pass

def unchanged (ns : List Node) : Pass :=
  ⟨ns, []⟩

def isChange (p : Pass) : Bool :=
  !p.dropped.isEmpty

def keep (n : Node) (p : Pass) : Pass :=
  ⟨n :: p.kept, p.dropped⟩

def drop (n : Node) (p : Pass) : Pass :=
  ⟨p.kept, n :: p.dropped⟩

def append (p₁ p₂ : Pass) : Pass :=
  ⟨p₁.kept ++ p₂.kept, p₁.dropped ++ p₂.dropped⟩

def each (f : Node → Pass) (ns : List Node) : Pass :=
  ns.foldr (fun n p => (f n).append p) (unchanged [])

theorem kept_each (f : Node → Pass) (ns : List Node) :
    (each f ns).kept = ns.flatMap fun n => (f n).kept := by
  induction ns with
  | nil => rfl
  | cons n ns ih => simp [each, append] at ih ⊢; exact ih

theorem dropped_each (f : Node → Pass) (ns : List Node) :
    (each f ns).dropped = ns.flatMap fun n => (f n).dropped := by
  induction ns with
  | nil => rfl
  | cons n ns ih => simp [each, append] at ih ⊢; exact ih

def andThen (p : Pass) (f : List Node → Pass) : Pass :=
  let q := f p.kept
  ⟨q.kept, p.dropped ++ q.dropped⟩

end Pass

namespace Node

def isEmptyText (n : Node) : Bool :=
  n.isText && n.text.isEmpty

def dissolve (n : Node) : Pass :=
  if n.kind = .wrapper ∅ then ⟨n.children, [n.withChildren []]⟩ else ⟨[n], []⟩

def sameStyles (n₁ n₂ : Node) : Bool :=
  match n₁.kind, n₂.kind with
  | .wrapper s₁, .wrapper s₂ => s₁ = s₂
  | _, _ => false

end Node

namespace Canonical

def mergeTextsInto (held : Node) : List Node → Pass
  | [] => if held.isEmptyText then ⟨[], [held]⟩ else ⟨[held], []⟩
  | n :: ns =>
    if held.isEmptyText then (mergeTextsInto n ns).drop held
    else if held.isText && n.isText then (mergeTextsInto (held.appendText n.text) ns).drop n
    else (mergeTextsInto n ns).keep held

def mergeTexts : List Node → Pass
  | [] => .unchanged []
  | n :: ns => mergeTextsInto n ns

def mergeTextsInWrappers : List Node → Pass :=
  .each fun n =>
    if n.isWrapper then
      let p := mergeTexts n.children
      ⟨[n.withChildren p.kept], p.dropped⟩
    else ⟨[n], []⟩

def unwrapUnstyled : List Node → Pass :=
  .each Node.dissolve

def dropEmptyWrappers : List Node → Pass :=
  .each fun n =>
    if n.isWrapper && n.children.isEmpty then ⟨[], [n]⟩ else ⟨[n], []⟩

-- A wrapper takes over the children of the wrappers after it that have the same styles.
def mergeWrappersInto (held : Node) : List Node → Pass
  | [] => .unchanged [held]
  | n :: ns =>
    if held.sameStyles n then
      (mergeWrappersInto (held.withChildren (held.children ++ n.children)) ns).drop
        (n.withChildren [])
    else (mergeWrappersInto n ns).keep held

def mergeWrappers : List Node → Pass
  | [] => .unchanged []
  | n :: ns => mergeWrappersInto n ns

def round (ns : List Node) : Pass :=
  (mergeTextsInWrappers ns).andThen unwrapUnstyled
    |>.andThen dropEmptyWrappers
    |>.andThen mergeWrappers
    |>.andThen mergeTexts

def rounds : Nat → List Node → Pass
  | 0, ns => .unchanged ns
  | fuel + 1, ns =>
    let p := round ns
    if p.isChange then p.andThen (rounds fuel) else p

-- Repeats the rounds until one changes nothing. Each other round takes out a node, so there are at
-- most as many rounds as nodes.
def canonicalize (ns : List Node) : Pass :=
  rounds (Node.count ns) ns

end Canonical

namespace Tree

def replaceChildren (t : Tree) (id : NodeId) (p : Pass) : Tree :=
  let t' := t.modifyChildren id fun _ => p.kept
  { t' with roots := t'.roots ++ p.dropped }

-- Brings the children of a block to canonical form, and tells whether they were not in it.
def canonicalize (t : Tree) (block : NodeId) : Bool × Tree :=
  let p := Canonical.canonicalize (t.children block)
  if p.isChange then (true, t.replaceChildren block p) else (false, t)

end Tree

end RichText
