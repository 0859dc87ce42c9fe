import RichText.Restyle.Draft
import RichText.Endpoints

namespace RichText

namespace Draft

-- The text runs together with the texts after it in its wrapper, but not with `stop`.
def absorbFollowing (d : Draft) (leaf stop : NodeId) : Draft :=
  match d.holder? leaf with
  | none => d
  | some w =>
    match w.childrenAround leaf with
    | (before, some n, after) =>
      let isAbsorbed (m : Node) := m.isText && m.id ≠ stop
      let texts := after.takeWhile isAbsorbed
      let n' := n.appendText (String.join (texts.map Node.text))
      let after' := after.dropWhile isAbsorbed
      { d.substitute w.id fun w => [w.withChildren (before ++ n' :: after')] with
        dropped := d.dropped ++ texts }
    | _ => d

def absorbPreceding (d : Draft) (leaf : NodeId) : Draft :=
  match d.holder? leaf with
  | none => d
  | some w =>
    match w.childrenAround leaf with
    | (before, some n, after) =>
      let texts := (before.reverse.takeWhile Node.isText).reverse
      let n' := n.prependText (String.join (texts.map Node.text))
      let before' := (before.reverse.dropWhile Node.isText).reverse
      { d.substitute w.id fun w => [w.withChildren (before' ++ n' :: after)] with
        dropped := d.dropped ++ texts }
    | _ => d

-- Gives a child of a wrapper a wrapper of its own, with the same styles. The children before it
-- keep the old wrapper, those after it get a new one. What is nowhere in a wrapper stays as it is.
def isolate (d : Draft) (child : NodeId) : NodeId × Draft :=
  match d.holder? child with
  | none => (child, d)
  | some w =>
    let replace (pieces : List Node) (made : Nat) : Draft :=
      { d.substitute w.id fun _ => pieces with next := d.next + made }
    let fresh (k : Nat) : NodeId := ⟨d.next + k⟩
    match w.childrenAround child with
    | (_, none, _) | ([], some _, []) => (w.id, d)
    | ([], some n, after) =>
      (w.id, replace [w.withChildren [n], w.copyAround (fresh 0) after] 1)
    | (before, some n, []) =>
      (fresh 0, replace [w.withChildren before, w.copyAround (fresh 0) [n]] 1)
    | (before, some n, after) =>
      (fresh 1, replace
        [w.withChildren before, w.copyAround (fresh 1) [n], w.copyAround (fresh 0) after] 2)

-- Adds a style to siblings: to those that are wrappers in place, to each run of adjacent texts by a
-- new wrapper around them. `run` holds the texts of a run met so far.
def tagAll (tag : String) (run : List Node) (next : Nat) : List Node → List Node × Nat
  | [] => close run next
  | n :: ns =>
    if n.isText then tagAll tag (run ++ [n]) next ns
    else
      let (closed, next) := close run next
      let (rest, next) := tagAll tag [] next ns
      (closed ++ n.addStyle tag :: rest, next)
where
  close (run : List Node) (next : Nat) : List Node × Nat :=
    if run.isEmpty then ([], next)
    else ([.mk ⟨next⟩ (.wrapper (.single tag)) run], next + 1)

def tagBetween (d : Draft) (first last : NodeId) (tag : String) : Draft :=
  let (before, inside, after) := Node.segment first last d.content
  let (inside, next) := tagAll tag [] d.next inside
  { d with content := before ++ inside ++ after, next }

-- Cuts the text at the start, if the start is not at its front, and goes on with the rest.
def splitStart (d : Draft) (p : Position) : NodeId × Draft :=
  if 0 < p.offset then d.splitText p.node p.offset else (p.node, d)

def splitStop (d : Draft) (p : Position) : Draft :=
  if p.offset < d.textLength p.node then (d.splitText p.node p.offset).2 else d

def apply (d : Draft) (e : Endpoints) (tag : String) : Draft :=
  if e.start.node = e.stop.node then
    let (leaf, d) := (d.splitStop e.stop).splitStart e.start
    let (own, d) := d.isolate leaf
    d.tagBetween own own tag
  else
    let (leaf, d) := d.splitStart e.start
    let d := d.splitStop e.stop
    let (first, d) := (d.absorbFollowing leaf e.stop.node).isolate leaf
    let (last, d) := (d.absorbPreceding e.stop.node).isolate e.stop.node
    d.tagBetween first last tag

end Draft

namespace Tree

-- The ends of a span in the texts of a block, with their offsets, if there is anything between.
def nonemptyEndpoints (t : Tree) (block : NodeId) (span : Span) :
    Except EditError (Endpoints × Nat × Nat) := do
  let e ← t.endpoints block span
  let (left, right) := e.offsets t block
  if left < right then return (e, left, right) else throw (.invalidSpan .empty)

-- Adds a style to a span of a block. The span comes back as the same offsets lie in the result.
def tryApply (t : Tree) (block : NodeId) (span : Span) (tag : String) :
    Except EditError Span × Tree :=
  match t.nonemptyEndpoints block span with
  | .error e => (.error e, t)
  | .ok (e, left, right) =>
    let t' := ((t.redraft block (·.apply e tag)).canonicalize block).2
    (.ok (t'.span block left right), t')

def applyStyle (t : Tree) (block : NodeId) (span : Span) (tag : String) :
    Except EditError (Span × Tree) :=
  let (r, t') := t.tryApply block span tag
  r.map (·, t')

theorem applyStyle_eq (t : Tree) (block : NodeId) (span : Span) (tag : String) :
    t.applyStyle block span tag = do
      let (e, left, right) ← t.nonemptyEndpoints block span
      let t' := ((t.redraft block (·.apply e tag)).canonicalize block).2
      return (t'.span block left right, t') := by
  rw [applyStyle, tryApply]
  cases t.nonemptyEndpoints block span <;> rfl

theorem tryApply_eq (t : Tree) (block : NodeId) (span : Span) (tag : String) :
    t.tryApply block span tag = match t.applyStyle block span tag with
      | .ok (r, t') => (.ok r, t')
      | .error e => (.error e, t) := by
  rw [applyStyle, tryApply]
  cases t.nonemptyEndpoints block span <;> rfl

end Tree

end RichText
