import RichText.Arena
import RichText.Lines
import RichText.Run

-- Walks along the stored links. A walk has no result where it does not end.
namespace RichText.Arena

variable (a : Arena)

section Upward

def embedFrom? (a : Arena) (scope : NodeId) : Option NodeId → Option (Option NodeId)
  | none => some none
  | some i =>
    if i = scope then some none
    else if a.isEmbed i then some (some i)
    else a |>.embedFrom? scope (a.parent? i)
partial_fixpoint

def embedAbove? (scope i : NodeId) : Option (Option NodeId) :=
  a.embedFrom? scope (a.parent? i)

def depthFrom? (a : Arena) (upper : NodeId) (depth : Nat) (i : NodeId) : Option (Option Nat) :=
  if i = upper then some (some depth)
  else match a.parent? i with
    | some p => a |>.depthFrom? upper (depth + 1) p
    | none => some none
partial_fixpoint

end Upward

section Leaves

def firstLeaf (a : Arena) (i : NodeId) : Option NodeId :=
  match a.firstChild? i with
  | some c => a |>.firstLeaf c
  | none => some i
partial_fixpoint

def lastLeaf (a : Arena) (i : NodeId) : Option NodeId :=
  match a.lastChild? i with
  | some c => a |>.lastLeaf c
  | none => some i
partial_fixpoint

def nextLeaf? (a : Arena) (scope i : NodeId) : Option (Option NodeId) :=
  if i = scope then some none
  else match a.next? i with
    | some n => (a.firstLeaf n).map some
    | none => match a.parent? i with
      | some p => a |>.nextLeaf? scope p
      | none => some none
partial_fixpoint

def prevLeaf? (a : Arena) (scope i : NodeId) : Option (Option NodeId) :=
  if i = scope then some none
  else match a.prev? i with
    | some n => (a.lastLeaf n).map some
    | none => match a.parent? i with
      | some p => a |>.prevLeaf? scope p
      | none => some none
partial_fixpoint

end Leaves

section Stack

def preorderFrom (a : Arena) (met : List NodeId) : List NodeId → Option (List NodeId)
  | [] => some met
  | i :: stack => a |>.preorderFrom (met ++ [i]) (a.children i ++ stack)
partial_fixpoint

def preorder (i : NodeId) : Option (List NodeId) :=
  a.preorderFrom [] [i]

def extendLast (s : String) : List String → List String
  | [] => []
  | [l] => [l ++ s]
  | l :: ls => l :: extendLast s ls

def linesFrom (a : Arena) (stop : Option NodeId) (lines : List String) :
    List NodeId → Option (List String)
  | [] => some lines
  | i :: stack =>
    if some i = stop then some lines
    else match a.kind? i with
      | some (.text s) => a |>.linesFrom stop (extendLast s lines) stack
      | some (.lineBreak true) => a |>.linesFrom stop lines stack
      | some (.lineBreak false) => a |>.linesFrom stop (lines ++ [""]) stack
      | _ => a |>.linesFrom stop lines (a.children i ++ stack)
partial_fixpoint

def lines (i : NodeId) (stop : Option NodeId) : Option (List String) :=
  a.linesFrom stop [""] [i]

-- Adds a text at the end of what was read, to the last run if that has the same styles.
def pushRun (s : String) (styles : StyleSet) : List Inline → List Inline
  | [] => [.run ⟨s, styles⟩]
  | [.run r] => if r.styles = styles then [.run ⟨r.text ++ s, r.styles⟩] else [.run r, .run ⟨s, styles⟩]
  | i :: is => i :: pushRun s styles is

def runsFrom (a : Arena) (read : List Inline) : List (NodeId × StyleSet) → Option (List Inline)
  | [] => some read
  | (i, inherited) :: stack =>
    match a.kind? i with
    | some (.text s) =>
      if s.isEmpty then a |>.runsFrom read stack
      else a |>.runsFrom (pushRun s inherited read) stack
    | some (.lineBreak false) => a |>.runsFrom (read ++ [.lineBreak]) stack
    | some (.lineBreak true) => a |>.runsFrom read stack
    | k =>
      let styles := inherited ∪ (k.bind Kind.styles?).getD ∅
      a |>.runsFrom read ((a.children i).map (·, styles) ++ stack)
partial_fixpoint

def runs (i : NodeId) : Option (List Inline) :=
  a.runsFrom [] ((a.children i).map (·, ∅))

end Stack

end RichText.Arena
