import RichText.Offset
import RichText.EditError

namespace RichText

-- Two positions in texts that lie in a block directly or in one of its wrappers.
structure Endpoints where
  start : Position
  stop : Position
deriving DecidableEq, Repr

-- A location in a block, with an offset in its node.
structure Spot where
  location : Location
  offset : Nat

namespace Spot

def node (s : Spot) : Node :=
  s.location.node

def atStart (l : Location) : Spot :=
  ⟨l, 0⟩

def atEnd (l : Location) : Spot :=
  ⟨l, l.node.extent⟩

def position (s : Spot) : Position :=
  ⟨s.node.id, s.offset⟩

def isBlock (s : Spot) : Bool :=
  s.location.path.isEmpty

-- Texts of the block and of its wrappers can be styled.
def isStyleable (s : Spot) : Bool :=
  s.node.isText && match s.location.path with
    | [_] => true
    | [f, _] => f.kind.isWrapper
    | _ => false

def startInBlock (s : Spot) : Except SpanFault Spot :=
  if s.isBlock then match s.location.child? s.offset with
    | some l => .ok (atStart l)
    | none => .error .startPastEnd
  else .ok s

def stopInBlock (s : Spot) : Except SpanFault Spot :=
  if s.isBlock then match s.offset with
    | 0 => .error .stopAtStart
    | index + 1 => match s.location.child? index with
      | some l => .ok (atEnd l)
      | none => .error .stopPastEnd
  else .ok s

-- Breaks and embeds hold no position, so a start moves on to the sibling after them.
def startPastAtoms (s : Spot) : Except SpanFault Spot :=
  if s.node.kind.isAtomic then match s.location.seekRight (!·.kind.isAtomic) with
    | some l => .ok (atStart l)
    | none => .error .nothingAfterStart
  else .ok s

def stopPastAtoms (s : Spot) : Except SpanFault Spot :=
  if s.node.kind.isAtomic then match s.location.seekLeft (!·.kind.isAtomic) with
    | some l => .ok (atEnd l)
    | none => .error .nothingBeforeStop
  else .ok s

def startInWrapper (s : Spot) : Spot :=
  if s.node.isWrapper then match s.location.child? s.offset with
    | some l => atStart l
    | none => match s.location.child? (s.node.children.length - 1) with
      | some l => atEnd l
      | none => s
  else s

def stopInWrapper (s : Spot) : Spot :=
  if s.node.isWrapper then
    let before := if s.offset = 0 then none else s.location.child? (s.offset - 1)
    match before, s.location.child? 0 with
    | some l, _ => atEnd l
    | none, some l => atStart l
    | none, none => s
  else s

end Spot

namespace Endpoints

def ofSpots (start stop : Spot) : Except SpanFault Endpoints := do
  let start ← start.startInBlock
  let stop ← stop.stopInBlock
  let start ← start.startPastAtoms
  let stop ← stop.stopPastAtoms
  let start := start.startInWrapper
  let stop := stop.stopInWrapper
  if start.isStyleable && stop.isStyleable then .ok ⟨start.position, stop.position⟩
  else .error .notText

end Endpoints

namespace Tree

variable (t : Tree)

-- Looks a position up in a block. Offsets past the end of the node count as its end.
def spot (block : Node) (p : Position) : Except EditError Spot :=
  match block.locate? p.node with
  | none => .error (.invalidSpan .outsideBlock)
  | some l =>
    if (t.embedBelow? block.id p.node).isSome then .error .atomicBoundary
    else if l.path.length > 2 then .error (.invalidSpan .nestedTooDeeply)
    else .ok ⟨l, min p.offset l.node.extent⟩

-- Moves the ends of a span inwards to texts of a block that can be styled.
def endpoints (block : NodeId) (span : Span) : Except EditError Endpoints :=
  match t.node? block with
  | none => .error (.invalidSpan .outsideBlock)
  | some b => do
    let start ← t.spot b span.start
    let stop ← t.spot b span.stop
    (Endpoints.ofSpots start stop).mapError .invalidSpan

end Tree

namespace Endpoints

def offsets (e : Endpoints) (t : Tree) (block : NodeId) : Nat × Nat :=
  (t.offsetOf block e.start, t.offsetOf block e.stop)

end Endpoints

end RichText
