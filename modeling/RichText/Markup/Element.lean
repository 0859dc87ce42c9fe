import RichText.Markup.Attribute
import RichText.Node
import RichText.Text.Blank
import RichText.Text.Natural

namespace RichText.Markup

def voidTags : List String := [
  "area", "base", "br", "col", "embed", "hr", "img", "input", "link", "meta", "source", "track",
  "wbr"]

def isVoid (tag : String) : Bool :=
  voidTags.contains tag

def classes (value : List Char) : StyleSet :=
  .ofList ((Text.words value).map String.ofList)

structure Traits where
  classes : StyleSet := ∅
  editable : Option Bool := none
  block : Option Nat := none
  cell : Option Nat := none
  trailing : Bool := false

namespace Traits

def add (t : Traits) (a : Attribute) : Traits :=
  match a.name with
  | "class" => { t with classes := Markup.classes a.text }
  | "contenteditable" => { t with editable := some (a.text.map Char.toLower ≠ "false".toList) }
  | "data-block-index" => { t with block := Text.natural? (Text.trim a.text) }
  | "data-table-index" => { t with cell := Text.natural? (Text.trim a.text) }
  | "data-trailing" => { t with trailing := true }
  | _ => t

def ofAttributes (as : List Attribute) : Traits :=
  as.foldl add {}

-- An index makes a block, an editable table index a cell, and what cannot be edited is an embed.
def kind (t : Traits) (tag : String) : Kind :=
  if tag = "br" then .lineBreak t.trailing
  else match t.block, t.cell, t.editable with
    | some index, _, editable => .block tag index (editable ≠ some false)
    | none, some index, some true => .cell tag index
    | none, _, some false => .embed tag
    | _, _, _ => if tag = "span" && !t.classes.isEmpty then .wrapper t.classes else .element tag

end Traits

end RichText.Markup
