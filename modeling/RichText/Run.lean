import RichText.Tree

namespace RichText

structure Run where
  text : String
  styles : StyleSet
deriving DecidableEq

inductive Inline where
  | run (r : Run)
  | lineBreak
deriving DecidableEq

namespace Inline

def isEmpty : Inline → Bool
  | run r => r.text.isEmpty
  | lineBreak => false

-- Puts a piece in front of others. Text with the styles of the first of them joins it.
def cons : Inline → List Inline → List Inline
  | run r, run r' :: rest =>
    if r.styles = r'.styles then run { r with text := r.text ++ r'.text } :: rest
    else run r :: run r' :: rest
  | i, rest => i :: rest

-- Leaves empty text out, and joins adjacent text with the same styles.
def join (is : List Inline) : List Inline :=
  (is.filter (!·.isEmpty)).foldr cons []

end Inline

namespace Node

mutual

-- Every text and break, a text with the styles of all the wrappers around it.
def inlines (styles : StyleSet) : Node → List Inline
  | mk _ k cs =>
    match k with
    | .text s => [.run ⟨s, styles⟩]
    | .lineBreak trailing => if trailing then [] else [.lineBreak]
    | .wrapper own => inlinesAmong (styles ∪ own) cs
    | _ => inlinesAmong styles cs

def inlinesAmong (styles : StyleSet) : List Node → List Inline
  | [] => []
  | n :: ns => n.inlines styles ++ inlinesAmong styles ns

end

def runs (n : Node) : List Inline :=
  Inline.join (inlinesAmong ∅ n.children)

end Node

namespace Tree

def runs (t : Tree) (id : NodeId) : List Inline :=
  ((t.node? id).map Node.runs).getD []

end Tree

end RichText
