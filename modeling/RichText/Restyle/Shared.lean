import RichText.Restyle.Clear

namespace RichText

namespace Draft

-- An end at an outer edge of its wrapper, or of a text beside wrappers, only touches it.
def sharedFrom (d : Draft) (p : Position) : Option NodeId :=
  let passed := d.textLength p.node ≤ p.offset
  match d.holder? p.node with
  | some w => if (w.childrenAround p.node).2.2.isEmpty && passed then d.next? w.id else some w.id
  | none => if passed then d.next? p.node else some p.node

def sharedTo (d : Draft) (p : Position) : Option NodeId :=
  match d.holder? p.node with
  | some w =>
    if (w.childrenAround p.node).1.isEmpty && p.offset = 0 then d.prev? w.id else some w.id
  | none => if p.offset = 0 then d.prev? p.node else some p.node

-- The styles that all wrappers among some siblings have, none if there is a text beside them.
def sharedStyles (ns : List Node) : StyleSet :=
  if ns.any Node.isText then ∅
  else match ns.filterMap (·.kind.styles?) with
    | [] => ∅
    | s :: ss => ss.foldl (· ∩ ·) s

def shared (d : Draft) (e : Endpoints) : StyleSet :=
  match d.sharedFrom e.start, d.sharedTo e.stop with
  | some first, some last =>
    let (_, inside, _) := Node.segment first last d.content
    if inside.any (·.id = last) then sharedStyles inside else ∅
  | _, _ => ∅

end Draft

namespace Tree

def stylesIn (t : Tree) (block : NodeId) (span : Span) : Except EditError StyleSet := do
  let e ← t.endpoints block span
  return (Draft.mk (t.children block) [] t.made).shared e

end Tree

end RichText
