import RichText.Arena
import RichText.Paste

namespace RichText.Arena

def pushText (a : Arena) (p : NodeId) (content : List Char) : Arena :=
  if content.isEmpty then a
  else match (a.lastChild? p).filter a.isText with
    | some l => a.mapText l (· ++ String.ofList content)
    | none =>
      let (i, a) := a.create (.text (String.ofList content))
      a.append p i

-- Adds what a token stands for. `opened` are the elements whose end has not been read, innermost first.
def addToken (a : Arena) (p : NodeId) (opened : List (String × NodeId)) :
    Markup.Token → List (String × NodeId) × Arena
  | .text content => (opened, a.pushText ((opened.head?.map Prod.snd).getD p) content)
  | .start name attributes isClosed =>
    let tag := String.ofList name
    let (i, a) := a.create ((Markup.Traits.ofAttributes attributes).kind tag)
    let a := a.append ((opened.head?.map Prod.snd).getD p) i
    (if isClosed || Markup.isVoid tag then opened else (tag, i) :: opened, a)
  | .stop name =>
    match opened.dropWhile (·.1 ≠ String.ofList name) with
    | _ :: outer => (outer, a)
    | [] => (opened, a)

def readFrom (a : Arena) (p : NodeId) (total : Nat) (opened : List (String × NodeId)) :
    List Char → Option (Arena × Option Markup.MarkupError)
  | [] => some (a, none)
  | c :: cs =>
    match Markup.Token.readStep (c :: cs) with
    | .token t rest =>
      let (opened, a) := a.addToken p opened t
      a |>.readFrom p total opened rest
    | .skip rest => a |>.readFrom p total opened rest
    | .fault f rest => some (a, some ⟨total - Markup.Token.size rest, f⟩)
partial_fixpoint

def parseInto (a : Arena) (p : NodeId) (markup : String) :
    Option (Arena × Option Markup.MarkupError) :=
  let cs := markup.toList
  let cs := match cs with
    | '\ufeff' :: rest => rest
    | _ => cs
  a.readFrom p (Markup.Token.size cs) [] cs

def pasteRun (a : Arena) (p : NodeId) (r : Run) : Arena :=
  let (text, a) := a.create (.text r.text)
  if r.styles.isEmpty then a.append p text
  else
    let (w, a) := a.create (.wrapper r.styles)
    (a.append w text).append p w

def pasteFragment (a : Arena) (runs : List Run) : NodeId × Arena :=
  let (fragment, a) := a.create (.element "fragment")
  (fragment, runs.foldl (·.pasteRun fragment ·) a)

end RichText.Arena
