namespace RichText

inductive SpanFault where
  | outsideBlock
  | nestedTooDeeply
  | startPastEnd
  | stopAtStart
  | stopPastEnd
  | nothingAfterStart
  | nothingBeforeStop
  | notText
  | empty
deriving DecidableEq, Repr

namespace SpanFault

def message : SpanFault → String
  | outsideBlock => "endpoint outside block"
  | nestedTooDeeply => "endpoint nested too deeply"
  | startPastEnd => "start past the end of the block"
  | stopAtStart => "end at the start of the block"
  | stopPastEnd => "end past the end of the block"
  | nothingAfterStart => "nothing after start break"
  | nothingBeforeStop => "nothing before end break"
  | notText => "endpoint is not a text leaf"
  | empty => "empty range"

end SpanFault

inductive EditError where
  | invalidSpan (fault : SpanFault)
  | blockNotFound (index : Nat)
  | atomicBoundary
  | noSelection
deriving DecidableEq, Repr

namespace EditError

def message : EditError → String
  | invalidSpan fault => "invalid range: " ++ fault.message
  | blockNotFound index => "no block with index " ++ toString index
  | atomicBoundary => "position falls inside an atomic embed"
  | noSelection => "no selection inside an editable block"

end EditError

end RichText
