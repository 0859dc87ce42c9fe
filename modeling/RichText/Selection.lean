import RichText.Offset
import RichText.EditError

namespace RichText

-- A selection in one block or cell. The anchor is where it began, the head is where the caret is.
structure Selection where
  anchor : Nat
  head : Nat
deriving DecidableEq, Repr

namespace Selection

def caret (offset : Nat) : Selection where
  anchor := offset
  head := offset

def start (s : Selection) : Nat :=
  min s.anchor s.head

def stop (s : Selection) : Nat :=
  max s.anchor s.head

def isCollapsed (s : Selection) : Bool :=
  s.anchor = s.head

def length (s : Selection) : Nat :=
  s.stop - s.start

def isBackwards (s : Selection) : Bool :=
  s.head < s.anchor

end Selection

structure BlockPoint where
  block : Nat
  offset : Nat
deriving DecidableEq, Repr

namespace BlockPoint

def precedes (a b : BlockPoint) : Bool :=
  a.block < b.block || (a.block = b.block && a.offset < b.offset)

end BlockPoint

structure BlockSelection where
  anchor : BlockPoint
  head : BlockPoint
deriving DecidableEq, Repr

namespace BlockSelection

def caret (p : BlockPoint) : BlockSelection where
  anchor := p
  head := p

def isCollapsed (s : BlockSelection) : Bool :=
  s.anchor = s.head

def ordered (s : BlockSelection) : BlockPoint × BlockPoint :=
  if s.head.precedes s.anchor then (s.head, s.anchor) else (s.anchor, s.head)

end BlockSelection

structure LiveSelection where
  anchor : Position
  focus : Position
deriving DecidableEq, Repr

namespace LiveSelection

def caret (p : Position) : LiveSelection where
  anchor := p
  focus := p

def ofSpan (s : Span) : LiveSelection where
  anchor := s.start
  focus := s.stop

def isCollapsed (s : LiveSelection) : Bool :=
  s.anchor = s.focus

end LiveSelection

namespace Tree

variable (t : Tree)

def blockIndex? (id : NodeId) : Option Nat :=
  (t.kind? id).bind Kind.blockIndex?

-- The nearest block at or above a node and below the root, if that block is editable.
def blockOf? (root id : NodeId) : Option NodeId :=
  match ((t.lineage id).takeWhile (·.1 ≠ root)).find? (·.2.blockIndex?.isSome) with
  | some (block, kind) => if kind.isEditableBlock then some block else none
  | none => none

def blockAt? (root : NodeId) (index : Nat) : Option NodeId :=
  ((t.preorder root).find? (·.kind.blockIndex? = some index)).map Node.id

def isEditableBlock (id : NodeId) : Bool :=
  ((t.kind? id).map Kind.isEditableBlock).getD false

def editableBlock (root : NodeId) (index : Nat) : Except EditError NodeId :=
  match t.blockAt? root index with
  | some block => if t.isEditableBlock block then .ok block else .error (.blockNotFound index)
  | none => .error (.blockNotFound index)

def blockPoint? (root : NodeId) (p : Position) : Option BlockPoint := do
  let block ← t.blockOf? root p.node
  let index ← t.blockIndex? block
  return ⟨index, t.offsetOf block p⟩

def readSelection (root : NodeId) (live : Option LiveSelection) : Except EditError BlockSelection :=
  match live with
  | none => .error .noSelection
  | some s =>
    match t.blockPoint? root s.anchor, t.blockPoint? root s.focus with
    | some anchor, some head => .ok ⟨anchor, head⟩
    | _, _ => .error .noSelection

def placeCaret (root : NodeId) (p : BlockPoint) : Except EditError LiveSelection := do
  let block ← t.editableBlock root p.block
  return .caret (t.resolve block p.offset)

def placeSelection (root : NodeId) (s : BlockSelection) : Except EditError LiveSelection := do
  let anchorBlock ← t.editableBlock root s.anchor.block
  let headBlock ← t.editableBlock root s.head.block
  return ⟨t.resolve anchorBlock s.anchor.offset, t.resolve headBlock s.head.offset⟩

def setCaret (root : NodeId) (p : BlockPoint) (live : Option LiveSelection) :
    Option LiveSelection :=
  (t.placeCaret root p).toOption.or live

-- Shows a selection, or what was shown before if one of its blocks is unknown.
def setSelection (root : NodeId) (s : BlockSelection) (live : Option LiveSelection) :
    Option LiveSelection :=
  (t.placeSelection root s).toOption.or live

def selectedCell? (root : NodeId) (live : Option LiveSelection) : Option NodeId := do
  let s ← live
  let (cell, _) ← ((t.lineage s.anchor.node).takeWhile (·.1 ≠ root)).find? (·.2.isCell)
  return cell

-- The selection by offsets in a cell, if both of its ends are in the cell.
def selectionIn? (cell : NodeId) (live : Option LiveSelection) : Option Selection := do
  let s ← live
  if t.contains cell s.anchor.node && t.contains cell s.focus.node then
    return ⟨t.offsetOf cell s.anchor, t.offsetOf cell s.focus⟩
  else none

def placeSelectionIn (cell : NodeId) (s : Selection) : LiveSelection :=
  ⟨t.resolve cell s.anchor, t.resolve cell s.head⟩

def caretIn? (cell : NodeId) (live : Option LiveSelection) : Option Nat := do
  let s ← t.selectionIn? cell live
  if s.isCollapsed then return s.head else none

def startOf (id : NodeId) : Position :=
  ⟨id, 0⟩

def stopOf (id : NodeId) : Position :=
  ⟨id, ((t.node? id).map Node.extent).getD 0⟩

end Tree

end RichText
