import RichText.Arena.Walk
import RichText.Position

namespace RichText.Arena

variable (a : Arena)

def charCount (i : NodeId) : Option Nat :=
  (a.lines i none).map Lines.measure

def countBefore (i stop : NodeId) : Option Nat :=
  (a.lines i (some stop)).map Lines.measure

def offsetOf (block : NodeId) (p : Position) : Option Nat := do
  if a.isText p.node then
    return (← a.countBefore block p.node) + min p.offset (a.textLength p.node)
  else match a.child? p.node p.offset with
    | some c => a.countBefore block c
    | none =>
      if p.offset = 0 then a.countBefore block p.node
      else if p.node = block then a.charCount block
      else return (← a.countBefore block p.node) + (← a.charCount p.node)

def before? (i : NodeId) : Option Position := do
  return ⟨← a.parent? i, ← a.index? i⟩

def after? (i : NodeId) : Option Position := do
  return ⟨← a.parent? i, (← a.index? i) + 1⟩

-- Goes from leaf to leaf until as many offsets as remain have been passed. An embed is passed at once.
def seek (a : Arena) (block : NodeId) (stop : Position) (remaining : Nat) :
    Option NodeId → Option Position
  | none => some stop
  | some i =>
    match a.kind? i with
    | some (.text s) => do
      match ← a.embedAbove? block i with
      | some embed =>
        let length ← a.charCount embed
        if remaining = 0 then return (a.before? embed).getD stop
        else if remaining ≤ length then return (a.after? embed).getD stop
        else a |>.seek block stop (remaining - length) (← a.nextLeaf? block (← a.lastLeaf embed))
      | none =>
        if remaining ≤ s.length then return ⟨i, remaining⟩
        else a |>.seek block stop (remaining - s.length) (← a.nextLeaf? block i)
    | some (.lineBreak true) => return (a.before? i).getD stop
    | some (.lineBreak false) =>
      if remaining = 0 then return (a.before? i).getD stop
      else do a |>.seek block stop (remaining - 1) (← a.nextLeaf? block i)
    | _ => do a |>.seek block stop remaining (← a.nextLeaf? block i)
partial_fixpoint

def resolve (block : NodeId) (offset : Nat) : Option Position := do
  let first ← a.firstLeaf block
  if offset = 0 then
    if a.isText first then
      match ← a.embedAbove? block first with
      | some embed => return (a.before? embed).getD ⟨block, 0⟩
      | none => return ⟨first, 0⟩
    else return ⟨block, 0⟩
  else a.seek block ⟨block, (a.children block).length⟩ offset (some first)

def span (block : NodeId) (start stop : Nat) : Option Span := do
  return ⟨← a.resolve block start, ← a.resolve block stop⟩

end RichText.Arena
