import RichText.CommandLine.Command
import RichText.Embed.Diagram
import RichText.Embed.Math
import RichText.Json.Write

namespace RichText.CommandLine

structure Surroundings where
  file? : String → Option String
  input : String

namespace Surroundings

def text (s : Surroundings) (argument : String) : String :=
  if argument = "-" then s.input else argument

def config? (s : Surroundings) : Option String → Option Config
  | none => some {}
  | some path => (s.file? path).bind Config.ofText?

end Surroundings

def isBlock (n : Node) : Bool :=
  n.kind.blockIndex?.isSome

def readDocument (markup : String) : Except Markup.MarkupError Document := do
  let d ← Document.parse markup
  if (d.tree.preorder d.root).any isBlock then return d
  else Document.parse ("<div data-block-index=\"0\">" ++ markup ++ "</div>")

def readBlock? (s : Surroundings) (input : BlockInput) : Option (Document × NodeId) := do
  let d ← (readDocument (s.text input.markup)).toOption
  return (d, ← d.blockAt? input.block)

def kindName : Kind → String
  | .text _ => "text"
  | .lineBreak _ => "break"
  | .wrapper _ => "wrapper"
  | .embed _ => "embed"
  | .block .. => "block"
  | .cell .. => "cell"
  | .element _ => "element"

def nodeName (id : NodeId) : String :=
  "n" ++ toString id.index

def jsonOfPosition (t : Tree) (p : Position) : Json :=
  .object [
    (some "kind", .ofString (((t.kind? p.node).map kindName).getD "")),
    (some "node", .ofString (nodeName p.node)),
    (some "offset", .ofNat p.offset)]

def membersOfRun (r : Run) : List (Option String × Json) := [
  (some "text", .ofString r.text),
  (some "styles", .ofStrings r.styles.tags)]

def jsonOfInline : Inline → Json
  | .run r => .object ((some "type", .ofString "text") :: membersOfRun r)
  | .lineBreak => .object [(some "type", .ofString "line_break")]

def restyle (how : Editor.Command) (t : Tree) (block : NodeId) (span : Span) (tag : String) :
    Tree :=
  match how with
  | .apply => (t.apply block span tag).2
  | .clear => (t.clear block span tag).2
  | .toggle => (t.toggle block span tag).2

def printRendering (r : Rendering) : Option String :=
  match r.error? with
  | none => some (r.appendTo "")
  | some _ => none

def output? (s : Surroundings) (config : Config) : Command → Option String
  | .lines input => do
    let (d, block) ← readBlock? s input
    return (Json.ofStrings (d.tree.lines block)).compact
  | .count input => do
    let (d, block) ← readBlock? s input
    return toString (d.tree.charCount block)
  | .resolve input offset => do
    let (d, block) ← readBlock? s input
    return (jsonOfPosition d.tree (d.tree.resolve block offset)).compact
  | .styles input start stop => do
    let (d, block) ← readBlock? s input
    return (Json.ofStrings (d.tree.styles block (d.tree.span block start stop)).tags).compact
  | .restyle how input change => do
    let (d, block) ← readBlock? s input
    let span := d.tree.span block change.start change.stop
    return { d with tree := restyle how d.tree block span change.style : Document }.innerMarkup
  | .runs input => do
    let (d, block) ← readBlock? s input
    return (Json.array ((d.tree.runs block).map jsonOfInline)).pretty
  | .paste markup =>
    let runs := Paste.sanitize config.paste (s.text markup)
    some (Json.array (runs.map (.object ∘ membersOfRun))).pretty
  | .math source isInline =>
    printRendering (Math.render (config.render.displayMath && !isInline) source)
  | .diagram source => printRendering (Diagram.render config.render.diagramBaseUrl source)

def run (s : Surroundings) (args : List String) : Outcome :=
  match readInvocation args with
  | .error o => o
  | .ok i =>
    match (s.config? i.config).bind fun config => output? s config i.command with
    | some text => .print text
    | none => .failure

end RichText.CommandLine
