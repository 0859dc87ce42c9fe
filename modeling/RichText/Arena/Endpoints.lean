import RichText.Arena.Offset
import RichText.Endpoints

namespace RichText.Arena

variable (a : Arena)

def extent (i : NodeId) : Nat :=
  if a.isText i then a.textLength i else (a.children i).length

def isAtomic (i : NodeId) : Bool :=
  a.isBreak i || a.isEmbed i

def checkEnd (block i : NodeId) : Option (Except EditError Unit) := do
  match ← a.depthFrom? block 0 i with
  | none => return .error (.invalidSpan .outsideBlock)
  | some depth =>
    if (← a.embedAbove? block i).isSome then return .error .atomicBoundary
    else if 2 < depth then return .error (.invalidSpan .nestedTooDeeply)
    else return .ok ()

def startInBlock (block : NodeId) (p : Position) : Except SpanFault Position :=
  if p.node = block then match a.child? block p.offset with
    | some c => .ok ⟨c, 0⟩
    | none => .error .startPastEnd
  else .ok p

def stopInBlock (block : NodeId) (p : Position) : Except SpanFault Position :=
  if p.node = block then match p.offset with
    | 0 => .error .stopAtStart
    | index + 1 => match a.child? block index with
      | some c => .ok ⟨c, a.extent c⟩
      | none => .error .stopPastEnd
  else .ok p

def startPastAtoms (a : Arena) (p : Position) : Option (Except SpanFault Position) :=
  if a.isAtomic p.node then match a.next? p.node with
    | some n => a |>.startPastAtoms ⟨n, 0⟩
    | none => some (.error .nothingAfterStart)
  else some (.ok p)
partial_fixpoint

def stopPastAtoms (a : Arena) (p : Position) : Option (Except SpanFault Position) :=
  if a.isAtomic p.node then match a.prev? p.node with
    | some n => a |>.stopPastAtoms ⟨n, a.extent n⟩
    | none => some (.error .nothingBeforeStop)
  else some (.ok p)
partial_fixpoint

def startInWrapper (p : Position) : Position :=
  if a.isWrapper p.node then match a.child? p.node p.offset with
    | some c => ⟨c, 0⟩
    | none => match a.lastChild? p.node with
      | some c => ⟨c, a.extent c⟩
      | none => p
  else p

def stopInWrapper (p : Position) : Position :=
  if a.isWrapper p.node then
    let before := if p.offset = 0 then none else a.child? p.node (p.offset - 1)
    match before, a.firstChild? p.node with
    | some c, _ => ⟨c, a.extent c⟩
    | none, some c => ⟨c, 0⟩
    | none, none => p
  else p

def isStyleable (block i : NodeId) : Bool :=
  a.isText i &&
    (a.parent? i).any fun p => p = block || (a.isWrapper p && a.parent? p = some block)

def inwards (block : NodeId) (start stop : Position) : Option (Except SpanFault Endpoints) :=
  match a.startInBlock block start with
  | .error f => some (.error f)
  | .ok start => match a.stopInBlock block stop with
    | .error f => some (.error f)
    | .ok stop => do
      match ← a.startPastAtoms start with
      | .error f => return .error f
      | .ok start => match ← a.stopPastAtoms stop with
        | .error f => return .error f
        | .ok stop =>
          let start := a.startInWrapper start
          let stop := a.stopInWrapper stop
          if a.isStyleable block start.node && a.isStyleable block stop.node then
            return .ok ⟨start, stop⟩
          else return .error .notText

def endpoints (block : NodeId) (span : Span) : Option (Except EditError Endpoints) := do
  match ← a.checkEnd block span.start.node with
  | .error e => return .error e
  | .ok () => match ← a.checkEnd block span.stop.node with
    | .error e => return .error e
    | .ok () =>
      let clamp (p : Position) : Position := ⟨p.node, min p.offset (a.extent p.node)⟩
      return (← a.inwards block (clamp span.start) (clamp span.stop)).mapError .invalidSpan

def nonemptyEndpoints (block : NodeId) (span : Span) :
    Option (Except EditError (Endpoints × Nat × Nat)) := do
  match ← a.endpoints block span with
  | .error e => return .error e
  | .ok e =>
    let left ← a.offsetOf block e.start
    let right ← a.offsetOf block e.stop
    if left < right then return .ok (e, left, right) else return .error (.invalidSpan .empty)

end RichText.Arena
