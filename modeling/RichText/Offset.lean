import RichText.Lines
import RichText.Position

namespace RichText

namespace Node

def offsetOf (block n : Node) (inner : Nat) : Nat :=
  if n.isText then block.countBefore n.id + min inner n.kind.textLength
  else match n.children[inner]? with
    | some child => block.countBefore child.id
    | none =>
      if inner = 0 then block.countBefore n.id
      else if n.id = block.id then block.charCount
      else block.countBefore n.id + n.charCount

end Node

structure Site where
  parent : NodeId
  index : Nat

namespace Site

def before (s : Site) : Position :=
  ⟨s.parent, s.index⟩

def after (s : Site) : Position :=
  ⟨s.parent, s.index + 1⟩

end Site

namespace Location

def site? : Location → Option Site
  | ⟨_, []⟩ => none
  | ⟨_, f :: _⟩ => some ⟨f.id, f.before.length⟩

end Location

-- An embed as a reader meets it: of one piece, and as long as all of its content.
structure Island where
  id : NodeId
  length : Nat
  site? : Option Site

namespace Island

def ofLocation (l : Location) : Island where
  id := l.node.id
  length := l.node.charCount
  site? := l.site?

end Island

-- A leaf as a reader of a block meets it, with the embeds that hold it, nearest first.
structure Leaf where
  id : NodeId
  kind : Kind
  site? : Option Site
  islands : List Island

namespace Node

mutual

def leaves (site? : Option Site) (islands : List Island) : Node → List Leaf
  | mk i k cs =>
    if cs.isEmpty then [⟨i, k, site?, islands⟩]
    else
      let inner := if k.isEmbed then ⟨i, (mk i k cs).charCount, site?⟩ :: islands else islands
      leavesAmong i 0 inner cs

def leavesAmong (parent : NodeId) (index : Nat) (islands : List Island) : List Node → List Leaf
  | [] => []
  | n :: ns => n.leaves (some ⟨parent, index⟩) islands ++ leavesAmong parent (index + 1) islands ns

end

end Node

namespace Location

def islandsAbove (l : Location) : List Island :=
  go l.node l.path
where
  go (n : Node) : List Frame → List Island
    | [] => []
    | f :: path =>
      let parent := f.plug n
      let rest := go parent path
      if f.kind.isEmbed then .ofLocation ⟨parent, path⟩ :: rest else rest

end Location

namespace Tree

variable (t : Tree)

-- The leaves met on the way through a block. A text that is itself beneath an embed, taken as a
-- block, cannot be read without its embed, so the way leads on past the embed to the end of its
-- tree.
def trail (l : Location) : List Leaf :=
  if l.node.children.isEmpty then
    let here : Leaf := ⟨l.node.id, l.node.kind, l.site?, l.islandsAbove⟩
    match l.node.kind, here.islands with
    | .text _, island :: _ =>
      if ((t.node? island.id).map (·.lastLeaf.id)) = some here.id then [here]
      else
        let leaves := ((t.rootOf? here.id).map (·.leaves none [])).getD []
        here :: (leaves.dropWhile (·.id ≠ here.id)).tail
    | _, _ => [here]
  else Node.leavesAmong l.node.id 0 [] l.node.children

end Tree

namespace Leaf

-- Walks until `remaining` offsets have been passed. Inside an embed that has been passed over,
-- leaves do not count. A point inside an embed moves to the place right after it.
def seek (stop : Position) : Option NodeId → Nat → List Leaf → Position
  | _, _, [] => stop
  | passed, remaining, s :: rest =>
    if s.islands.any (some ·.id = passed) then seek stop passed remaining rest
    else match s.kind, s.islands with
      | .text _, island :: _ =>
        if remaining = 0 then (island.site?.map Site.before).getD stop
        else if remaining ≤ island.length then (island.site?.map Site.after).getD stop
        else seek stop (some island.id) (remaining - island.length) rest
      | .text content, [] =>
        if remaining ≤ content.length then ⟨s.id, remaining⟩
        else seek stop none (remaining - content.length) rest
      | .lineBreak true, _ => (s.site?.map Site.before).getD stop
      | .lineBreak false, _ =>
        if remaining = 0 then (s.site?.map Site.before).getD stop
        else seek stop none (remaining - 1) rest
      | _, _ => seek stop none remaining rest

end Leaf

namespace Tree

variable (t : Tree)

def offsetOf (block : NodeId) (p : Position) : Nat :=
  match t.node? block, t.node? p.node with
  | some b, some n => b.offsetOf n p.offset
  | _, _ => 0

-- The position of an offset in a block, never inside an embed. Offsets past the end lead to the
-- end.
def resolve (block : NodeId) (offset : Nat) : Position :=
  match t.locate? block with
  | none => ⟨block, 0⟩
  | some l =>
    let trail := t.trail l
    if offset = 0 then
      match trail with
      | ⟨id, .text _, _, []⟩ :: _ => ⟨id, 0⟩
      | ⟨_, .text _, _, island :: _⟩ :: _ => (island.site?.map Site.before).getD ⟨block, 0⟩
      | _ => ⟨block, 0⟩
    else Leaf.seek ⟨block, l.node.children.length⟩ none offset trail

def span (block : NodeId) (start stop : Nat) : Span :=
  ⟨t.resolve block start, t.resolve block stop⟩

def isAtStart (block : NodeId) (p : Position) : Bool :=
  t.offsetOf block p = 0

def isAtEnd (block : NodeId) (p : Position) : Bool :=
  t.charCount block ≤ t.offsetOf block p

end Tree

end RichText
