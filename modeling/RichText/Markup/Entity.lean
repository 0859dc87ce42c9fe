import RichText.Text.Digit

namespace RichText.Markup

-- The names that are read as characters. A reference by any other name stays as it is written.
def namedCharacters : List (String × Char) := [
  ("AMP", '&'), ("Eacute", 'É'), ("LT", '<'), ("NotEqualTilde", '≂'), ("Omega", 'Ω'),
  ("alpha", 'α'), ("amp", '&'), ("apos", '\''), ("copy", '©'), ("eacute", 'é'), ("euro", '€'),
  ("fjlig", 'f'), ("frac12", '½'), ("gt", '>'), ("hearts", '♥'), ("hellip", '…'), ("larr", '←'),
  ("lt", '<'), ("mdash", '—'), ("nbsp", '\u00a0'), ("ndash", '–'), ("quot", '"'), ("rarr", '→'),
  ("reg", '®'), ("shy", '\u00ad'), ("trade", '™'), ("uuml", 'ü'), ("zwj", '\u200d')]

-- The character with a number, if markup may refer to it: no surrogates and few controls.
def characterAt? (number : Nat) : Option Char :=
  if number < 32 && !(number = 9 || number = 10 || number = 12 || number = 13) then none
  else if h : number.isValidChar then some (Char.ofNatAux number h)
  else none

-- The character that a reference stands for. The body is what lies between ampersand and semicolon.
def character? : List Char → Option Char
  | '#' :: 'x' :: ds | '#' :: 'X' :: ds => (Text.digits? 16 ds).bind characterAt?
  | '#' :: ds => (Text.digits? 10 ds).bind characterAt?
  | name => (namedCharacters.find? (·.1.toList = name)).map (·.2)

def expand (body : List Char) : List Char :=
  match character? body with
  | some c => [c]
  | none => '&' :: body ++ [';']

-- Replaces the references in a text. An ampersand without a semicolon after it stays.
def decode (cs : List Char) : List Char :=
  outside cs
where
  outside : List Char → List Char
    | [] => []
    | c :: cs => if c = '&' then inside [] cs else c :: outside cs
  -- The body read so far is in reverse.
  inside (body : List Char) : List Char → List Char
    | [] => '&' :: body.reverse
    | c :: cs =>
      if c = '&' then '&' :: body.reverse ++ inside [] cs
      else if c = ';' then expand body.reverse ++ outside cs
      else inside (c :: body) cs

def escapeChar : Char → List Char
  | '&' => "&amp;".toList
  | '<' => "&lt;".toList
  | '>' => "&gt;".toList
  | c => [c]

def escape (cs : List Char) : List Char :=
  cs.flatMap escapeChar

def escapeQuoted (cs : List Char) : List Char :=
  cs.flatMap fun c => if c = '"' then "&quot;".toList else escapeChar c

end RichText.Markup
