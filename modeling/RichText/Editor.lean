import RichText.Document
import RichText.Paste
import RichText.Restyle

namespace RichText

structure Editor where
  document : Document
  live : Option LiveSelection
  config : Config

namespace Editor

def parse (markup : String) (config : Config) : Except Markup.MarkupError Editor := do
  return { document := ← Document.parse markup, live := none, config }

def tree (e : Editor) : Tree :=
  e.document.tree

def root (e : Editor) : NodeId :=
  e.document.root

def readSelection? (e : Editor) : Option BlockSelection :=
  (e.tree.readSelection e.root e.live).toOption

def setCaret (e : Editor) (p : BlockPoint) : Editor :=
  { e with live := e.tree.setCaret e.root p e.live }

def setSelection (e : Editor) (s : BlockSelection) : Editor :=
  { e with live := e.tree.setSelection e.root s e.live }

structure Part where
  block : NodeId
  start : Nat
  stop : Nat

inductive Target where
  | cell (id : NodeId) (selection : Selection)
  | blocks (selection : BlockSelection) (parts : List Part)

namespace Target

def parts : Target → List Part
  | cell id s => if s.isCollapsed then [] else [⟨id, s.start, s.stop⟩]
  | blocks _ parts => parts

end Target

-- The part of the block with an index that lies between two points, if there is any.
def part? (e : Editor) (first last : BlockPoint) (index : Nat) : Option Part := do
  let block ← e.document.blockAt? index
  let start := if index = first.block then first.offset else 0
  let stop := if index = last.block then last.offset else e.tree.charCount block
  if e.tree.isEditableBlock block && start < stop then return ⟨block, start, stop⟩ else none

-- The cell with the anchor comes first. Otherwise the selection covers blocks.
def target? (e : Editor) : Option Target :=
  match e.tree.selectedCell? e.root e.live with
  | some id => (e.tree.selectionIn? id e.live).map (.cell id)
  | none => e.readSelection?.map fun s =>
    let (first, last) := s.ordered
    let indices := List.range' first.block (last.block + 1 - first.block)
    .blocks s (indices.filterMap (e.part? first last))

def activeStyles (e : Editor) : StyleSet :=
  match (e.target?.map Target.parts).getD [] with
  | [] => ∅
  | p :: ps =>
    let styles (p : Part) := e.tree.styles p.block (e.tree.span p.block p.start p.stop)
    ps.foldl (fun common p => common ∩ styles p) (styles p)

inductive Command where
  | apply
  | clear
  | toggle
deriving DecidableEq, Repr

-- Puts the selection back where it was by offsets, as its positions may be gone.
def restore (e : Editor) : Target → Editor
  | .cell id s => { e with live := some (e.tree.placeSelectionIn id s) }
  | .blocks s _ => match e.tree.placeSelection e.root s with
    | .ok live => { e with live := some live }
    | .error _ => e

-- Restyles the selection, and tells whether any text was selected. A toggle clears a style that all
-- of the selection has.
def restyle (e : Editor) (command : Command) (tag : String) : Bool × Editor :=
  match e.target? with
  | none => (false, e)
  | some target =>
    if target.parts.isEmpty then (false, e)
    else
      let clears := match command with
        | .apply => false
        | .clear => true
        | .toggle => tag ∈ e.activeStyles
      let restylePart (t : Tree) (p : Part) : Tree :=
        let span := t.span p.block p.start p.stop
        if clears then (t.clear p.block span tag).2 else (t.apply p.block span tag).2
      let tree := target.parts.foldl restylePart e.tree
      (true, { e with document := { e.document with tree } }.restore target)

end Editor

end RichText
