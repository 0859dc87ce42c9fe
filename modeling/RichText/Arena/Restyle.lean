import RichText.Arena.Canonical
import RichText.Arena.Endpoints

namespace RichText.Arena

section Parts

def copyWrapper (a : Arena) (w : NodeId) : NodeId × Arena :=
  a.create (.wrapper ((a.styles? w).getD ∅))

-- Takes a style from a wrapper, and puts its children in its place if that was the last one.
def unstyle (a : Arena) (w : NodeId) (tag : String) : Arena :=
  match a.styles? w with
  | some s =>
    let a := a.mapKind w (·.mapStyles (·.erase tag))
    if (s.erase tag).isEmpty then a.unwrap w else a
  | none => a

def absorbFollowing (a : Arena) (leaf stop : NodeId) : Option Arena :=
  match a.next? leaf with
  | some n =>
    if n ≠ stop && a.isText n then
      (a.mapText leaf (· ++ a.text n)).detach n |>.absorbFollowing leaf stop
    else some a
  | none => some a
partial_fixpoint

def absorbPreceding (a : Arena) (leaf : NodeId) : Option Arena :=
  match a.prev? leaf with
  | some n =>
    if a.isText n then (a.mapText leaf (a.text n ++ ·)).detach n |>.absorbPreceding leaf
    else some a
  | none => some a
partial_fixpoint

def cutFrom (a : Arena) (w first : NodeId) : Option (NodeId × Arena) :=
  let (right, a) := a.copyWrapper w
  ((a.insertAfter w right).moveRun right (some first)).map (right, ·)

-- Gives a child a wrapper of its own, with the styles of the one it is in.
def isolate (a : Arena) (child : NodeId) : Option (NodeId × Arena) :=
  match a.parent? child with
  | none => some (child, a)
  | some w =>
    if (a.children w).length = 1 then some (w, a)
    else do
      let a ← match a.next? child with
        | some n => (a.cutFrom w n).map Prod.snd
        | none => some a
      if (a.children w).length = 1 then return (w, a)
      else
        let (own, a) := a.copyWrapper w
        return (own, (a.insertAfter w own).append own child)

-- Cuts the wrapper around a text in two, and tells both halves. At an outer edge, nothing is cut.
def splitWrapper (a : Arena) (leaf : NodeId) (offset : Nat) :
    Option (Option (NodeId × NodeId) × Arena) :=
  match a.parent? leaf with
  | none => some (none, a)
  | some w =>
    if !a.isText leaf || ((a.prev? leaf).isNone && offset = 0) ||
        ((a.next? leaf).isNone && a.textLength leaf ≤ offset) then
      some (some (w, w), a)
    else
      let (rest, a) := a.splitText leaf offset
      (a.cutFrom w rest).map fun (right, a) => (some (w, right), a)

-- Adds a style to a node. A run of texts gets a new wrapper, made for its first one.
def tagOne (a : Arena) (tag : String) (run : Option NodeId) (i : NodeId) : Option NodeId × Arena :=
  match a.kind? i with
  | some (.text _) => match run with
    | some w => (some w, a.append w i)
    | none =>
      let (w, a) := a.create (.wrapper (.single tag))
      (some w, (a.insertBefore i w).append w i)
  | some (.wrapper _) => (none, a.mapKind i (·.mapStyles (·.insert tag)))
  | _ => (none, a)

def tagFrom (a : Arena) (last : NodeId) (tag : String) (run : Option NodeId) :
    Option NodeId → Option Arena
  | none => some a
  | some i =>
    let next := a.next? i
    let (run, a) := a.tagOne tag run i
    if i = last then some a else a |>.tagFrom last tag run next
partial_fixpoint

def untagFrom (a : Arena) (last : NodeId) (tag : String) : Option NodeId → Option Arena
  | none => some a
  | some i =>
    let next := a.next? i
    let a := if a.hasStyle i tag then a.unstyle i tag else a
    if i = last then some a else a |>.untagFrom last tag next
partial_fixpoint

end Parts

section Apply

def splitStart (a : Arena) (p : Position) : NodeId × Arena :=
  if 0 < p.offset then a.splitText p.node p.offset else (p.node, a)

def splitStop (a : Arena) (p : Position) : Arena :=
  if p.offset < a.textLength p.node then (a.splitText p.node p.offset).2 else a

-- Lifts the first end of what gets the style up to a child of the block. Both ends may be one.
def liftFirst (a : Arena) (block first last : NodeId) : Option ((NodeId × NodeId) × Arena) :=
  if a.parent? first = some block then some ((first, last), a)
  else do
    let a ← if first = last then some a else a.absorbFollowing first last
    let (own, a) ← a.isolate first
    return ((own, if first = last then own else last), a)

def liftLast (a : Arena) (block last : NodeId) : Option (NodeId × Arena) :=
  if a.parent? last = some block then some (last, a)
  else do (← a.absorbPreceding last).isolate last

def splitEnds (a : Arena) (e : Endpoints) : (NodeId × NodeId) × Arena :=
  if e.start.node = e.stop.node then
    let (leaf, a) := (a.splitStop e.stop).splitStart e.start
    ((leaf, leaf), a)
  else
    let (leaf, a) := a.splitStart e.start
    ((leaf, e.stop.node), a.splitStop e.stop)

def applyEnds (a : Arena) (block : NodeId) (e : Endpoints) (tag : String) : Option Arena := do
  let ((first, last), a) := a.splitEnds e
  let ((first, last), a) ← a.liftFirst block first last
  let (last, a) ← a.liftLast block last
  a.tagFrom last tag none (some first)

def tryApply (a : Arena) (block : NodeId) (span : Span) (tag : String) :
    Option (Except EditError Span × Arena) := do
  match ← a.nonemptyEndpoints block span with
  | .error e => return (.error e, a)
  | .ok (e, left, right) =>
    let a ← a.applyEnds block e tag
    let (_, a) ← a.canonicalize block
    return (.ok (← a.span block left right), a)

end Apply

section Clear

-- Moves children to the end of another node, as long as the first one is not the given one.
def moveUntil (a : Arena) (source target stop : NodeId) : Option Arena :=
  match a.firstChild? source with
  | some c => if c = stop then some a else a.append target c |>.moveUntil source target stop
  | none => some a
partial_fixpoint

-- Moves the children of a wrapper before one of them to a copy of the wrapper.
def cutBefore (a : Arena) (w first : NodeId) : Option Arena :=
  let (left, a) := a.copyWrapper w
  (a.insertBefore w left).moveUntil w left first

def cutAround (a : Arena) (w : NodeId) (e : Endpoints) : Option Arena := do
  let a ←
    if e.stop.offset < a.textLength e.stop.node then
      let (rest, a) := a.splitText e.stop.node e.stop.offset
      (a.cutFrom w rest).map Prod.snd
    else some a
  if 0 < e.start.offset then
    let (middle, a) := a.splitText e.start.node e.start.offset
    a.cutBefore w middle
  else some a

def clearWithin (a : Arena) (w : NodeId) (e : Endpoints) (tag : String) : Option Arena :=
  (a.cutAround w e).map (·.unstyle w tag)

def clearFrom (a : Arena) (block : NodeId) (p : Position) (tag : String) :
    Option (Option NodeId × Arena) :=
  match a.parent? p.node with
  | some w =>
    if w = block then some (some p.node, a)
    else if a.hasStyle w tag then
      if (a.next? p.node).isNone && a.textLength p.node ≤ p.offset then some (a.next? w, a)
      else (a.splitWrapper p.node p.offset).map fun (halves, a) => (halves.map Prod.snd, a)
    else some (some w, a)
  | none => some (some p.node, a)

def clearTo (a : Arena) (block : NodeId) (p : Position) (tag : String) :
    Option (Option NodeId × Arena) :=
  match a.parent? p.node with
  | some w =>
    if w = block then some (some p.node, a)
    else if a.hasStyle w tag then
      if (a.prev? p.node).isNone && p.offset = 0 then some (a.prev? w, a)
      else (a.splitWrapper p.node p.offset).map fun (halves, a) => (halves.map Prod.fst, a)
    else some (some w, a)
  | none => some (some p.node, a)

-- Whether two nodes are siblings, the second one not before the first one.
def isOrdered (a : Arena) (first last : NodeId) : Bool :=
  match a.index? first, a.index? last with
  | some m, some n => m ≤ n && a.parent? first = a.parent? last
  | _, _ => false

def clearEnds (a : Arena) (block : NodeId) (e : Endpoints) (tag : String) : Option Arena := do
  let (first, a) ← a.clearFrom block e.start tag
  let (last, a) ← a.clearTo block e.stop tag
  match first, last with
  | some first, some last =>
    if a.isOrdered first last then a.untagFrom last tag (some first) else some a
  | _, _ => some a

def tryClear (a : Arena) (block : NodeId) (span : Span) (tag : String) :
    Option (Except EditError Span × Arena) := do
  match ← a.nonemptyEndpoints block span with
  | .error e => return (.error e, a)
  | .ok (e, left, right) =>
    if e.start.node = e.stop.node then
      match (a.parent? e.start.node).filter (a.hasStyle · tag) with
      | some w =>
        let a ← a.clearWithin w e tag
        let (_, a) ← a.canonicalize block
        return (.ok (← a.span block left right), a)
      | none => return (.ok span, a)
    else
      let a ← a.clearEnds block e tag
      let (_, a) ← a.canonicalize block
      return (.ok (← a.span block left right), a)

end Clear

section Toggle

variable (a : Arena)

def sharedFrom (block : NodeId) (p : Position) : Option NodeId :=
  let passed := a.textLength p.node ≤ p.offset
  match (a.parent? p.node).filter (· ≠ block) with
  | some w => if (a.next? p.node).isNone && passed then a.next? w else some w
  | none => if a.isText p.node && passed then a.next? p.node else some p.node

def sharedTo (block : NodeId) (p : Position) : Option NodeId :=
  match (a.parent? p.node).filter (· ≠ block) with
  | some w => if (a.prev? p.node).isNone && p.offset = 0 then a.prev? w else some w
  | none => if a.isText p.node && p.offset = 0 then a.prev? p.node else some p.node

-- What the wrappers up to the last one have in common, with `common` for those before.
def sharedStyles (a : Arena) (last : NodeId) (common : Option StyleSet) (i : NodeId) :
    Option StyleSet :=
  let go (common : Option StyleSet) : Option StyleSet :=
    if i = last then some (common.getD ∅)
    else match a.next? i with
      | some n => a |>.sharedStyles last common n
      | none => some ∅
  match a.kind? i with
  | some (.text _) => some ∅
  | some (.wrapper s) => go (some ((common.map (· ∩ s)).getD s))
  | _ => go common
partial_fixpoint

def stylesIn (block : NodeId) (span : Span) : Option (Except EditError StyleSet) := do
  match ← a.endpoints block span with
  | .error e => return .error e
  | .ok e => match a.sharedFrom block e.start, a.sharedTo block e.stop with
    | some first, some last => return .ok (← a.sharedStyles last none first)
    | _, _ => return .ok ∅

def apply (block : NodeId) (span : Span) (tag : String) : Option (Span × Arena) := do
  let (r, a) ← a.tryApply block span tag
  return (r.toOption.getD span, a)

def clear (block : NodeId) (span : Span) (tag : String) : Option (Span × Arena) := do
  let (r, a) ← a.tryClear block span tag
  return (r.toOption.getD span, a)

def toggle (block : NodeId) (span : Span) (tag : String) : Option (Span × Arena) := do
  let styles := (← a.stylesIn block span).toOption.getD ∅
  if tag ∈ styles then a.clear block span tag else a.apply block span tag

end Toggle

end RichText.Arena
