import RichText.Canonical

namespace RichText

namespace Tidy

-- Takes out a last break that stands for an empty line, unless it follows another break.
def dropLastBreak (ns : List Node) : Pass :=
  match ns.reverse with
  | last :: rest =>
    if last.kind = .lineBreak false && !(rest.head?.map (·.kind.isBreak)).getD false then
      ⟨rest.reverse, [last]⟩
    else .unchanged ns
  | [] => .unchanged ns

-- A space at the front of a block would not be shown, so a no-break space takes its place.
def guardText (s : String) : String :=
  match s.toList with
  | ' ' :: cs => String.ofList ('\u00a0' :: cs)
  | _ => s

def guardFirst : List Node → List Node
  | n :: ns => n.withKind (n.kind.mapText guardText) :: ns
  | [] => []

end Tidy

namespace Tree

-- Tidies the children of a block after an edit, and tells whether that changed anything.
def tidy (t : Tree) (block : NodeId) : Bool × Tree :=
  let ns := t.children block
  let p := Tidy.dropLastBreak ns
  let kept := Tidy.guardFirst p.kept
  if p.isChange || kept ≠ p.kept then (true, t.replaceChildren block ⟨kept, p.dropped⟩)
  else (false, t)

end Tree

end RichText
