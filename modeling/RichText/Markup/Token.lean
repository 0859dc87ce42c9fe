import RichText.Markup.Attribute

namespace RichText.Markup

inductive Fault where
  | unknownBang
  | unclosedInstruction
  | unclosedComment
  | unclosedDoctype
  | unclosedData
  | unclosedTag
  | unnamedDoctype
  | unclosedReference
deriving DecidableEq, Repr

namespace Fault

def message : Fault → String
  | unknownBang => "syntax error: unknown or missed symbol in markup"
  | unclosedInstruction => "syntax error: processing instruction or xml declaration not closed: " ++
      "`?>` not found before end of input"
  | unclosedComment => "syntax error: comment not closed: `-->` not found before end of input"
  | unclosedDoctype => "syntax error: DOCTYPE not closed: `>` not found before end of input"
  | unclosedData => "syntax error: CDATA not closed: `]]>` not found before end of input"
  | unclosedTag => "syntax error: tag not closed: `>` not found before end of input"
  | unnamedDoctype => "ill-formed document: `<!DOCTYPE>` declaration does not contain " ++
      "a name of a document type"
  | unclosedReference => "ill-formed document: entity or character reference not closed: " ++
      "`;` not found before end of input"

end Fault

structure MarkupError where
  position : Nat
  fault : Fault
deriving DecidableEq, Repr

namespace MarkupError

def message (e : MarkupError) : String :=
  "malformed markup near byte " ++ toString e.position ++ ": " ++ e.fault.message

end MarkupError

inductive Token where
  | text (content : List Char)
  | start (name : List Char) (attributes : List Attribute) (isClosed : Bool)
  | stop (name : List Char)

namespace Token

def size (cs : List Char) : Nat :=
  (cs.map Char.utf8Size).foldr (· + ·) 0

def readTag? (quote : Option Char) : List Char → Option (List Char × List Char)
  | [] => none
  | c :: cs =>
    match quote with
    | some q =>
      (readTag? (if c = q then none else some q) cs).map fun (tag, rest) => (c :: tag, rest)
    | none =>
      if c = '>' then some ([], cs)
      else
        (readTag? (if c = '"' || c = '\'' then some c else none) cs).map fun (tag, rest) =>
          (c :: tag, rest)

-- What lies before the first `>` that follows `closing` and is the character number `least` or a
-- later one, and what follows it. `read` holds what was read, in reverse.
def readPast? (closing : List Char) (least : Nat) (read : List Char) :
    List Char → Option (List Char × List Char)
  | [] => none
  | c :: cs =>
    if c = '>' && least ≤ read.length && closing.reverse.isPrefixOf read then
      some (read.reverse, cs)
    else readPast? closing least (c :: read) cs

-- What lies before the `>` that closes as many `<` as were opened, and what follows it.
def readNested? (depth : Nat) : List Char → Option (List Char × List Char)
  | [] => none
  | c :: cs =>
    if c = '>' && depth = 0 then some ([], cs)
    else
      let depth := if c = '<' then depth + 1 else if c = '>' then depth - 1 else depth
      (readNested? depth cs).map fun (inner, rest) => (c :: inner, rest)

def trimEnd (cs : List Char) : List Char :=
  (cs.reverse.dropWhile isSpace).reverse

-- An end tag. The space after its name is not part of it, unless there is no name.
def ofStop (cs : List Char) : Token :=
  let name := if (trimEnd cs).isEmpty then cs else trimEnd cs
  stop (name.map Char.toLower)

def ofStart (cs : List Char) : Token :=
  let isClosed := cs.getLast? = some '/'
  let cs := if isClosed then cs.dropLast else cs
  let name := cs.takeWhile (!isSpace ·)
  start (name.map Char.toLower) (Attribute.ofList (cs.drop name.length)) isClosed

-- What an attempt to read the next piece of markup gives, with what follows the piece.
inductive Step where
  | token (t : Token) (rest : List Char)
  -- Comments and the like.
  | skip (rest : List Char)
  | fault (f : Fault) (rest : List Char)

def readBang (cs : List Char) : Step :=
  match cs with
  | _ :: '-' :: _ =>
    match readPast? "--".toList 5 [] cs with
    | none => .fault .unclosedComment []
    | some (inner, rest) =>
      if "!--".toList.isPrefixOf inner then .skip rest else .fault .unclosedComment rest
  | _ :: '[' :: _ =>
    match readPast? "]]".toList 0 [] cs with
    | none => .fault .unclosedData []
    | some (inner, rest) =>
      if "![CDATA[".toList.isPrefixOf inner then
        .token (.text ((inner.drop 8).dropLast.dropLast)) rest
      else .fault .unclosedData rest
  | _ :: 'D' :: _ | _ :: 'd' :: _ =>
    match readNested? 0 cs with
    | none => .fault .unclosedDoctype []
    | some (inner, rest) =>
      if (inner.take 8).map Char.toUpper = "!DOCTYPE".toList then
        if (inner.drop 8).all isSpace then .fault .unnamedDoctype rest else .skip rest
      else .fault .unclosedDoctype rest
  | _ => .fault .unknownBang cs

def readStep : List Char → Step
  | '<' :: cs =>
    match cs with
    | '!' :: _ => readBang cs
    | '?' :: _ =>
      match readPast? ['?'] 0 [] cs with
      | none => .fault .unclosedInstruction []
      | some (inner, rest) =>
        if inner.length = 1 then .fault .unclosedInstruction rest else .skip rest
    | '/' :: _ =>
      match readTag? none cs with
      | none => .fault .unclosedTag []
      | some (tag, rest) => .token (ofStop tag.tail) rest
    | _ =>
      match readTag? none cs with
      | none => .fault .unclosedTag []
      | some (tag, rest) => .token (ofStart tag) rest
  | '&' :: cs =>
    let isInner (c : Char) := c ≠ ';' && c ≠ '&' && c ≠ '<'
    match cs.dropWhile isInner with
    | ';' :: rest => .token (.text (expand (cs.takeWhile isInner))) rest
    | rest => .fault .unclosedReference rest
  | cs =>
    let isPlain (c : Char) := c ≠ '<' && c ≠ '&'
    .token (.text (cs.takeWhile isPlain)) (cs.dropWhile isPlain)

-- The tokens up to the end, or to the first fault. Each piece takes at least one character.
def readAll (total : Nat) : Nat → List Char → List Token × Option MarkupError
  | 0, _ | _, [] => ([], none)
  | fuel + 1, cs =>
    match readStep cs with
    | .token t rest =>
      let (ts, e) := readAll total fuel rest
      (t :: ts, e)
    | .skip rest => readAll total fuel rest
    | .fault f rest => ([], some ⟨total - size rest, f⟩)

def ofText (cs : List Char) : List Token × Option MarkupError :=
  let cs := match cs with
    | '\ufeff' :: rest => rest
    | _ => cs
  readAll (size cs) cs.length cs

end RichText.Markup.Token
