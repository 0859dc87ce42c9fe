import RichText.Restyle.Apply

namespace RichText

namespace Node

-- A wrapper cut around some of its text: the part with that text, and what is beside it.
structure Cut where
  before : List Node
  middle : Node
  after : List Node
  next : Nat

-- Cuts a wrapper at two offsets of one of its texts. It keeps what is between, and new wrappers
-- take the rest. Where an offset is at an end of the text, nothing is cut, and the siblings on that
-- side stay in the wrapper.
def cutAround (w : Node) (leaf : NodeId) (start stop : Nat) (next : Nat) : Cut :=
  match w.childrenAround leaf with
  | (before, some n, after) =>
    let (n, inner, outer, next) :=
      if stop < n.kind.textLength then
        (n.takeText stop, [], [w.copyAround ⟨next + 1⟩ (n.dropText stop ⟨next⟩ :: after)], next + 2)
      else (n, after, [], next)
    if 0 < start then
      { before := [w.copyAround ⟨next + 1⟩ (before ++ [n.takeText start])]
        middle := w.withChildren (n.dropText start ⟨next⟩ :: inner)
        after := outer
        next := next + 2 }
    else
      { before := [], middle := w.withChildren (before ++ n :: inner), after := outer, next }
  | _ => { before := [], middle := w, after := [], next }

end Node

namespace Draft

-- Cuts a wrapper in two at an offset of one of its texts. The new wrapper, with the rest, comes
-- right after it. Nothing is cut at the outer edges of the wrapper, and it is then both of its
-- halves.
def cutWrapper (d : Draft) (w : Node) (leaf : NodeId) (offset : Nat) :
    (NodeId × NodeId) × Draft :=
  match w.childrenAround leaf with
  | (before, some n, after) =>
    if (before.isEmpty && offset = 0) || (after.isEmpty && n.kind.textLength ≤ offset) then
      ((w.id, w.id), d)
    else
      let right := w.copyAround ⟨d.next + 1⟩ (n.dropText offset ⟨d.next⟩ :: after)
      ((w.id, right.id),
       { d.substitute w.id fun w => [w.withChildren (before ++ [n.takeText offset]), right] with
         next := d.next + 2 })
  | _ => ((w.id, w.id), d)

-- The first node of the content to clear. A wrapper that the span only touches is left out.
def clearFrom (d : Draft) (p : Position) (tag : String) : Option NodeId × Draft :=
  match d.holder? p.node with
  | none => (some p.node, d)
  | some w =>
    if w.kind.hasStyle tag then
      if (w.childrenAround p.node).2.2.isEmpty && d.textLength p.node ≤ p.offset then
        (d.next? w.id, d)
      else
        let ((_, right), d) := d.cutWrapper w p.node p.offset
        (some right, d)
    else (some w.id, d)

-- The last node of the content to clear. A wrapper that the span only touches is left out.
def clearTo (d : Draft) (p : Position) (tag : String) : Option NodeId × Draft :=
  match d.holder? p.node with
  | none => (some p.node, d)
  | some w =>
    if w.kind.hasStyle tag then
      if (w.childrenAround p.node).1.isEmpty && p.offset = 0 then (d.prev? w.id, d)
      else
        let ((left, _), d) := d.cutWrapper w p.node p.offset
        (some left, d)
    else (some w.id, d)

def clearBetween (d : Draft) (first last : NodeId) (tag : String) : Draft :=
  let (before, inside, after) := Node.segment first last d.content
  if inside.any (·.id = last) then
    let clearOne (n : Node) : Pass :=
      if n.kind.hasStyle tag then (n.removeStyle tag).dissolve else ⟨[n], []⟩
    let p := Pass.each clearOne inside
    { d with content := before ++ p.kept ++ after, dropped := d.dropped ++ p.dropped }
  else d

def clear (d : Draft) (e : Endpoints) (tag : String) : Draft :=
  let (first, d) := d.clearFrom e.start tag
  let (last, d) := d.clearTo e.stop tag
  match first, last with
  | some first, some last => d.clearBetween first last tag
  | _, _ => d

end Draft

namespace Tree

def clearWithin (t : Tree) (w : Node) (e : Endpoints) (tag : String) : Tree :=
  let cut := w.cutAround e.start.node e.start.offset e.stop.offset t.made
  let bare := cut.middle.removeStyle tag
  -- A wrapper without parent has no place to leave its children in.
  let p := if (t.parent? w.id).isSome then bare.dissolve else ⟨[bare], []⟩
  let t' := t.substitute w.id fun _ => cut.before ++ p.kept ++ cut.after
  { roots := t'.roots ++ p.dropped, made := cut.next }

-- Takes a style from a span of a block. The span comes back as the same offsets lie in the result.
-- A span in a single text that lacks the style changes nothing.
def tryClear (t : Tree) (block : NodeId) (span : Span) (tag : String) :
    Except EditError Span × Tree :=
  match t.nonemptyEndpoints block span with
  | .error e => (.error e, t)
  | .ok (e, left, right) =>
    if e.start.node = e.stop.node then
      match (t.parent? e.start.node).bind t.node? with
      | some w =>
        if w.kind.hasStyle tag then
          let t' := ((t.clearWithin w e tag).canonicalize block).2
          (.ok (t'.span block left right), t')
        else (.ok span, t)
      | none => (.ok span, t)
    else
      let t' := ((t.redraft block (·.clear e tag)).canonicalize block).2
      (.ok (t'.span block left right), t')

def clearStyle (t : Tree) (block : NodeId) (span : Span) (tag : String) :
    Except EditError (Span × Tree) :=
  let (r, t') := t.tryClear block span tag
  r.map (·, t')

theorem clearStyle_eq (t : Tree) (block : NodeId) (span : Span) (tag : String) :
    t.clearStyle block span tag = do
      let (e, left, right) ← t.nonemptyEndpoints block span
      if e.start.node = e.stop.node then
        match (t.parent? e.start.node).bind t.node? with
        | some w =>
          if w.kind.hasStyle tag then
            let t' := ((t.clearWithin w e tag).canonicalize block).2
            return (t'.span block left right, t')
          else return (span, t)
        | none => return (span, t)
      else
        let t' := ((t.redraft block (·.clear e tag)).canonicalize block).2
        return (t'.span block left right, t') := by
  rw [clearStyle, tryClear]
  cases t.nonemptyEndpoints block span with
  | error => rfl
  | ok r =>
    dsimp only [bind, Except.bind]
    split
    case isTrue =>
      split
      case h_1 => split <;> rfl
      case h_2 => rfl
    case isFalse => rfl

theorem tryClear_eq (t : Tree) (block : NodeId) (span : Span) (tag : String) :
    t.tryClear block span tag = match t.clearStyle block span tag with
      | .ok (r, t') => (.ok r, t')
      | .error e => (.error e, t) := by
  rw [clearStyle_eq, tryClear]
  cases t.nonemptyEndpoints block span with
  | error => rfl
  | ok r =>
    dsimp only [bind, Except.bind]
    split
    case isTrue =>
      split
      case h_1 => split <;> rfl
      case h_2 => rfl
    case isFalse => rfl

end Tree

end RichText
