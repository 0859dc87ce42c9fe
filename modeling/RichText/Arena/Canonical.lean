import RichText.Arena
import RichText.Tidy

namespace RichText.Arena

-- Goes through a child list by index. An empty text is taken out, and a text that is followed by
-- another one takes that one in.
def mergeTextsFrom (a : Arena) (p : NodeId) (changed : Bool) (index : Nat) : Option (Bool × Arena) :=
  match a.child? p index with
  | none => some (changed, a)
  | some c =>
    if a.text? c = some "" then a.detach c |>.mergeTextsFrom p true index
    else match a.child? p (index + 1) with
      | some n =>
        if a.isText c && a.isText n then
          (a.mapText c (· ++ a.text n)).detach n |>.mergeTextsFrom p true index
        else a |>.mergeTextsFrom p changed (index + 1)
      | none => a |>.mergeTextsFrom p changed (index + 1)
partial_fixpoint

def mergeTexts (a : Arena) (p : NodeId) : Option (Bool × Arena) :=
  a.mergeTextsFrom p false 0

def wrappers (a : Arena) (block : NodeId) : List NodeId :=
  (a.children block).filter a.isWrapper

def mergeTextsInWrappers (a : Arena) (block : NodeId) : Option (Bool × Arena) :=
  (a.wrappers block).foldlM (fun (changed, a) w => do
    let (c, a) ← a.mergeTexts w
    return (changed || c, a)) (false, a)

def unwrapUnstyled (a : Arena) (block : NodeId) : Bool × Arena :=
  (a.wrappers block).foldl (fun (changed, a) w =>
    if (a.styles? w).any StyleSet.isEmpty then (true, a.unwrap w) else (changed, a)) (false, a)

def dropEmptyWrappers (a : Arena) (block : NodeId) : Bool × Arena :=
  (a.wrappers block).foldl (fun (changed, a) w =>
    if (a.children w).isEmpty then (true, a.detach w) else (changed, a)) (false, a)

def moveAll (a : Arena) (source target : NodeId) : Option Arena :=
  match a.firstChild? source with
  | some c => a.append target c |>.moveAll source target
  | none => some a
partial_fixpoint

def sameStyles (a : Arena) (i j : NodeId) : Bool :=
  match a.styles? i, a.styles? j with
  | some s, some s' => s = s'
  | _, _ => false

def mergeWrappersFrom (a : Arena) (block : NodeId) (changed : Bool) (index : Nat) :
    Option (Bool × Arena) :=
  match a.child? block index, a.child? block (index + 1) with
  | some left, some right =>
    if a.sameStyles left right then do
      let a ← a.moveAll right left
      a.detach right |>.mergeWrappersFrom block true index
    else a |>.mergeWrappersFrom block changed (index + 1)
  | _, _ => some (changed, a)
partial_fixpoint

def mergeWrappers (a : Arena) (block : NodeId) : Option (Bool × Arena) :=
  a.mergeWrappersFrom block false 0

def round (a : Arena) (block : NodeId) : Option (Bool × Arena) := do
  let (c₁, a) ← a.mergeTextsInWrappers block
  let (c₂, a) := a.unwrapUnstyled block
  let (c₃, a) := a.dropEmptyWrappers block
  let (c₄, a) ← a.mergeWrappers block
  let (c₅, a) ← a.mergeTexts block
  return (c₁ || c₂ || c₃ || c₄ || c₅, a)

def roundsFrom (a : Arena) (block : NodeId) (changed : Bool) : Option (Bool × Arena) := do
  let (c, a) ← a.round block
  if c then a |>.roundsFrom block true else return (changed, a)
partial_fixpoint

def canonicalize (a : Arena) (block : NodeId) : Option (Bool × Arena) :=
  a.roundsFrom block false

-- Takes out a last break that stands for an empty line, unless it follows another break.
def dropLastBreak (a : Arena) (block : NodeId) : Bool × Arena :=
  match a.lastChild? block with
  | some l =>
    if a.kind? l = some (Kind.lineBreak false) && !(a.prev? l).any a.isBreak then (true, a.detach l)
    else (false, a)
  | none => (false, a)

def guardFirst (a : Arena) (block : NodeId) : Bool × Arena :=
  match a.firstChild? block with
  | some f =>
    match (a.text f).toList with
    | ' ' :: _ => (true, a.mapText f Tidy.guardText)
    | _ => (false, a)
  | none => (false, a)

def tidy (a : Arena) (block : NodeId) : Bool × Arena :=
  let (c₁, a) := a.dropLastBreak block
  let (c₂, a) := a.guardFirst block
  (c₁ || c₂, a)

end RichText.Arena
