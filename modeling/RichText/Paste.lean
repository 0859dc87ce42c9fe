import RichText.Config
import RichText.Document
import RichText.Run

namespace RichText

namespace Paste

def text (n : Node) : String :=
  n.textContent.map fun c => if c = '\u00a0' then ' ' else c

def styles (c : PasteConfig) (n : Node) : StyleSet :=
  (n.kind.styles?.getD ∅).filter c.allows

-- The nodes that markup from a clipboard consists of: the children of its body if it has one.
def contentRoot (root : Node) : Node :=
  (root.preorder.tail.find? (·.kind = .element "body")).getD root

-- A run for each node that keeps a style. The text of the nodes in between makes one run. `plain`
-- is the text of such a run so far.
def runsOf (c : PasteConfig) : Option String → List Node → List Run
  | plain, [] => close plain
  | plain, n :: ns =>
    if (styles c n).isEmpty then runsOf c (some (plain.getD "" ++ text n)) ns
    else close plain ++ ⟨text n, styles c n⟩ :: runsOf c none ns
where
  close : Option String → List Run
    | some s => [⟨s, ∅⟩]
    | none => []

-- Reduces markup from a clipboard to runs. If it cannot be read to its end, the rest is left out.
def sanitize (c : PasteConfig) (markup : String) : List Run :=
  let root : Node := .mk ⟨0⟩ (.element "fragment") (Markup.parseAfter [] 1 markup).1.nodes
  let body := contentRoot root
  let runs := (runsOf c none body.children).filter (!·.text.isEmpty)
  if runs.isEmpty && !(text body).isEmpty then [⟨text body, ∅⟩] else runs

def nodeOf (next : Nat) (r : Run) : Node × Nat :=
  let leaf : Node := .mk ⟨next⟩ (.text r.text) []
  if r.styles.isEmpty then (leaf, next + 1)
  else (.mk ⟨next + 1⟩ (.wrapper r.styles) [leaf], next + 2)

def nodesOf (next : Nat) : List Run → List Node × Nat
  | [] => ([], next)
  | r :: rs =>
    let (n, next) := nodeOf next r
    let (ns, next) := nodesOf next rs
    (n :: ns, next)

end Paste

namespace Tree

def pasteFragment (t : Tree) (runs : List Run) : NodeId × Tree :=
  let (ns, next) := Paste.nodesOf (t.made + 1) runs
  (⟨t.made⟩, { roots := t.roots ++ [.mk ⟨t.made⟩ (.element "fragment") ns], made := next })

end Tree

end RichText
