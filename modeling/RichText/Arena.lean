import Mathlib
import RichText.Node

namespace RichText

-- What is stored of a node. That a node is the child of another one is stored twice, in its slot and
-- in the slot of its parent.
structure Slot where
  kind : Kind
  parent : Option NodeId
  children : List NodeId
deriving DecidableEq

-- All nodes ever made, in slots that are numbered as the nodes are.
structure Arena where
  slots : List Slot
deriving DecidableEq

namespace Arena

def empty : Arena where
  slots := []

section Read

variable (a : Arena) (i : NodeId)

def size : Nat :=
  a.slots.length

def slot? : Option Slot :=
  a.slots[i.index]?

def kind? : Option Kind :=
  (a.slot? i).map Slot.kind

def parent? : Option NodeId :=
  (a.slot? i).bind Slot.parent

def children : List NodeId :=
  ((a.slot? i).map Slot.children).getD []

def child? (index : Nat) : Option NodeId :=
  (a.children i)[index]?

def firstChild? : Option NodeId :=
  (a.children i).head?

def lastChild? : Option NodeId :=
  (a.children i).getLast?

def index? : Option Nat := do
  let p ← a.parent? i
  (a.children p).findIdx? (· = i)

def next? : Option NodeId := do
  let p ← a.parent? i
  let index ← a.index? i
  a.child? p (index + 1)

def prev? : Option NodeId := do
  let p ← a.parent? i
  let index ← a.index? i
  if index = 0 then none else a.child? p (index - 1)

def isText : Bool :=
  (a.kind? i).any Kind.isText

def isBreak : Bool :=
  (a.kind? i).any Kind.isBreak

def isWrapper : Bool :=
  (a.kind? i).any Kind.isWrapper

def isEmbed : Bool :=
  (a.kind? i).any Kind.isEmbed

def text? : Option String :=
  (a.kind? i).bind Kind.text?

def text : String :=
  (a.text? i).getD ""

def textLength : Nat :=
  (a.text i).length

def styles? : Option StyleSet :=
  (a.kind? i).bind Kind.styles?

def hasStyle (tag : String) : Bool :=
  (a.kind? i).any (·.hasStyle tag)

end Read

section Write

variable (a : Arena)

def modify (i : NodeId) (f : Slot → Slot) : Arena where
  slots := a.slots.modify i.index f

def setParent (i : NodeId) (p : Option NodeId) : Arena :=
  a.modify i ({ · with parent := p })

def mapChildren (i : NodeId) (f : List NodeId → List NodeId) : Arena :=
  a.modify i fun s => { s with children := f s.children }

def mapKind (i : NodeId) (f : Kind → Kind) : Arena :=
  a.modify i fun s => { s with kind := f s.kind }

def mapText (i : NodeId) (f : String → String) : Arena :=
  a.mapKind i (·.mapText f)

def create (k : Kind) : NodeId × Arena :=
  (⟨a.size⟩, { slots := a.slots ++ [⟨k, none, []⟩] })

def detach (i : NodeId) : Arena :=
  match a.parent? i with
  | some p => (a.setParent i none).mapChildren p (·.filter (· ≠ i))
  | none => a

-- Moves a node under a parent, to an index that counts without it. A larger index is the end.
def insert (p : NodeId) (index : Nat) (c : NodeId) : Arena :=
  let a := a.detach c
  let a := a.mapChildren p fun cs => cs.insertIdx (min index cs.length) c
  a.setParent c (some p)

def append (p c : NodeId) : Arena :=
  a.insert p (a.children p).length c

def insertBefore (reference c : NodeId) : Arena :=
  let a := a.detach c
  match a.parent? reference, a.index? reference with
  | some p, some index => a.insert p index c
  | _, _ => a

def insertAfter (reference c : NodeId) : Arena :=
  let a := a.detach c
  match a.parent? reference, a.index? reference with
  | some p, some index => a.insert p (index + 1) c
  | _, _ => a

-- Cuts a text. What is cut off becomes a text of its own, right after the old one if that has a parent.
def splitText (i : NodeId) (offset : Nat) : NodeId × Arena :=
  match a.text? i with
  | none => (i, a)
  | some s =>
    let a := a.mapText i fun s => String.ofList (s.toList.take offset)
    let (rest, a) := a.create (.text (String.ofList (s.toList.drop offset)))
    (rest, a.insertAfter i rest)

def place (p : NodeId) (index : Nat) (c : NodeId) : Arena :=
  (a.setParent c (some p)).mapChildren p (·.insertIdx index c)

-- Puts the children of a node in its place. For a while they stand next to it.
def unwrap (i : NodeId) : Arena :=
  match a.parent? i, a.index? i with
  | some p, some index =>
    let cs := a.children i
    let a := a.mapChildren i fun _ => []
    (cs.zipIdx.foldl (fun a (c, offset) => a.place p (index + 1 + offset) c) a).detach i
  | _, _ => a

-- Moves a node and the siblings after it to the end of another node, one by one.
def moveRun (a : Arena) (target : NodeId) : Option NodeId → Option Arena
  | none => some a
  | some i => a.append target i |>.moveRun target (a.next? i)
partial_fixpoint

end Write

end Arena

end RichText
