import RichText.Markup.Element

namespace RichText

namespace Markup

def startTag (tag : String) (attributes : List (String × String)) : List Char :=
  '<' :: tag.toList ++ attributes.flatMap (fun (key, value) =>
    ' ' :: key.toList ++ "=\"".toList ++ escapeQuoted value.toList ++ ['"']) ++ ['>']

def stopTag (tag : String) : List Char :=
  if isVoid tag then [] else "</".toList ++ tag.toList ++ ['>']

end Markup

namespace Kind

open Markup

-- The tag and the attributes of a node that is written as an element with content.
def asElement : Kind → String × List (String × String)
  | wrapper styles => ("span", [("class", styles.classes)])
  | embed tag => (tag, [("contenteditable", "false")])
  | block tag index editable =>
    (tag, ("data-block-index", toString index) ::
      if editable then [] else [("contenteditable", "false")])
  | cell tag index => (tag, [("contenteditable", "true"), ("data-table-index", toString index)])
  | element tag => (tag, [])
  | text _ | lineBreak _ => ("", [])

end Kind

namespace Node

open Markup

mutual

def markup : Node → List Char
  | mk _ k cs =>
    match k with
    | .text s => escape s.toList
    | .lineBreak false => startTag "br" []
    | .lineBreak true => startTag "br" [("data-trailing", "")]
    | k =>
      let (tag, attributes) := k.asElement
      startTag tag attributes ++ markupAll cs ++ stopTag tag

def markupAll : List Node → List Char
  | [] => []
  | n :: ns => n.markup ++ markupAll ns

end

theorem markupAll_eq_flatMap (ns : List Node) : markupAll ns = ns.flatMap markup := by
  induction ns with
  | nil => rfl
  | cons n ns ih => rw [markupAll, ih, List.flatMap_cons]

def innerMarkup (n : Node) : String :=
  String.ofList (markupAll n.children)

end Node

end RichText
