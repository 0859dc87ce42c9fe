import RichText.Embed
import RichText.Markup.Entity

namespace RichText.Math

inductive Fault where
  | unexpectedClosing
  | unclosedGroup
  | shift
  | hash
  | alignment
  | doubleSuperscript
  | doubleSubscript
  | unknownCommand
  | missingArgument
deriving DecidableEq, Repr

namespace Fault

def message : Fault → String
  | unexpectedClosing => "unbalanced group found, unexpected group closing found"
  | unclosedGroup => "unbalanced group found, expected it to be closed with `\x7d`"
  | shift =>
    "unexpected math `$` (math shift) character - this character cannot be used inside math mode"
  | hash =>
    "unexpected hash sign `#` character - this character can only be used in macro definitions"
  | alignment => "alignment not allowed in current environment"
  | doubleSuperscript => "trying to add a superscript twice to the same element"
  | doubleSubscript => "trying to add a subscript twice to the same element"
  | unknownCommand => "unknown primitive command found"
  | missingArgument => "unexpected end of input, expected an argument"

def report (source : String) (f : Fault) : String :=
  let width := source.utf8ByteSize
  String.intercalate "\n" [
    "parsing error: " ++ f.message, "╭─► context:", "│", "│ " ++ source,
    "│ " ++ String.ofList (List.replicate width '^'),
    "╰─" ++ String.ofList (List.replicate width '─')]

end Fault

inductive Token where
  | letter (c : Char)
  | number (digits : List Char)
  | operator (c : Char)
  | opening
  | closing
  | superscript
  | subscript
  | fraction
  | root
  | fault (f : Fault)

namespace Token

def ofCommand (name : List Char) : Token :=
  match String.ofList name with
  | "alpha" => letter 'α'
  | "beta" => letter 'β'
  | "frac" => fraction
  | "sqrt" => root
  | _ => fault .unknownCommand

def ofChar : Char → Token
  | '\x7b' => opening
  | '\x7d' => closing
  | '^' => superscript
  | '_' => subscript
  | '$' => fault .shift
  | '#' => fault .hash
  | '&' => fault .alignment
  | '-' => operator '−'
  | c => if c.isAlpha then letter c else operator c

def read : Nat → List Char → List Token
  | 0, _ | _, [] => []
  | fuel + 1, c :: cs =>
    if c.isWhitespace then read fuel cs
    else if c.isDigit then
      number (c :: cs.takeWhile Char.isDigit) :: read fuel (cs.dropWhile Char.isDigit)
    else if c = '\\' then
      ofCommand (cs.takeWhile Char.isAlpha) :: read fuel (cs.dropWhile Char.isAlpha)
    else ofChar c :: read fuel cs

def ofSource (source : String) : List Token :=
  read source.length source.toList

def fault? : Token → Option Fault
  | fault f => some f
  | _ => none

end Token

inductive Formula where
  | letter (c : Char)
  | number (digits : List Char)
  | operator (c : Char)
  | group (items : List Formula)
  | fraction (numerator denominator : Formula)
  | root (radicand : Formula)
  | sub (base lower : Formula)
  | sup (base upper : Formula)
  | subsup (base lower upper : Formula)

namespace Formula

def withScripts (base : Formula) : Option Formula → Option Formula → Formula
  | none, none => base
  | some lower, none => sub base lower
  | none, some upper => sup base upper
  | some lower, some upper => subsup base lower upper

mutual

def readItems (inGroup : Bool) : Nat → List Token → Except Fault (List Formula × List Token)
  | 0, _ => .ok ([], [])
  | _, [] => if inGroup then .error .unclosedGroup else .ok ([], [])
  | _, .closing :: ts => if inGroup then .ok ([], ts) else .error .unexpectedClosing
  | fuel + 1, ts => do
    let (base, ts) ← readItem fuel ts
    let (item, ts) ← readScripts base none none fuel ts
    let (items, ts) ← readItems inGroup fuel ts
    return (item :: items, ts)

def readItem : Nat → List Token → Except Fault (Formula × List Token)
  | 0, ts => .ok (group [], ts)
  | _, [] => .error .missingArgument
  | fuel + 1, t :: ts =>
    match t with
    | .letter c => .ok (letter c, ts)
    | .number digits => .ok (number digits, ts)
    | .operator c => .ok (operator c, ts)
    | .opening => do
      let (items, ts) ← readItems true fuel ts
      return (group items, ts)
    | .closing => .error .unexpectedClosing
    | .superscript | .subscript => .ok (group [], t :: ts)
    | .fraction => do
      let (numerator, ts) ← readItem fuel ts
      let (denominator, ts) ← readItem fuel ts
      return (fraction numerator denominator, ts)
    | .root => do
      let (radicand, ts) ← readItem fuel ts
      return (root radicand, ts)
    | .fault f => .error f

def readScripts (base : Formula) (lower upper : Option Formula) :
    Nat → List Token → Except Fault (Formula × List Token)
  | fuel + 1, .superscript :: ts =>
    if upper.isSome then .error .doubleSuperscript
    else do
      let (item, ts) ← readItem fuel ts
      readScripts base lower (some item) fuel ts
  | fuel + 1, .subscript :: ts =>
    if lower.isSome then .error .doubleSubscript
    else do
      let (item, ts) ← readItem fuel ts
      readScripts base (some item) upper fuel ts
  | _, ts => .ok (base.withScripts lower upper, ts)

end

-- Reads a source, or says what is wrong with it: characters out of place first, then its shape.
def ofSource (source : String) : Except (List Fault) (List Formula) :=
  let tokens := Token.ofSource source
  let shape := readItems false (2 * tokens.length + 2) (tokens.filter (·.fault?.isNone))
  match tokens.filterMap Token.fault?, shape with
  | [], .ok (items, _) => .ok items
  | fs, .ok _ => .error fs
  | fs, .error f => .error (fs ++ [f])

def tagged (tag : String) (content : List Char) : List Char :=
  '<' :: tag.toList ++ '>' :: content ++ '<' :: '/' :: tag.toList ++ ['>']

mutual

def markup : Formula → List Char
  | letter c => tagged "mi" [c]
  | number digits => tagged "mn" digits
  | operator c => tagged "mo" (Markup.escapeChar c)
  | group items => tagged "mrow" (markupAll items)
  | fraction numerator denominator => tagged "mfrac" (numerator.markup ++ denominator.markup)
  | root radicand => tagged "msqrt" radicand.markup
  | sub base lower => tagged "msub" (base.markup ++ lower.markup)
  | sup base upper => tagged "msup" (base.markup ++ upper.markup)
  | subsup base lower upper => tagged "msubsup" (base.markup ++ lower.markup ++ upper.markup)

def markupAll : List Formula → List Char
  | [] => []
  | item :: items => item.markup ++ markupAll items

end

end Formula

def fallback (display : Bool) (source message : String) : String :=
  "<span class=\"math math-error " ++ (if display then "math-display" else "math-inline") ++
    "\" title=\"" ++ String.ofList (Markup.escapeQuoted message.toList) ++ "\"><code>" ++
    String.ofList (Markup.escape source.toList) ++ "</code></span>"

def render (display : Bool) (source : String) : Rendering :=
  match Formula.ofSource source with
  | .ok items =>
    ⟨"<math display=\"" ++ (if display then "block" else "inline") ++ "\">" ++
      String.ofList (Formula.markupAll items) ++ "</math>", none⟩
  | .error fs =>
    let message := String.intercalate "; " (fs.map (·.report source))
    ⟨fallback display source message, some message⟩

end RichText.Math
