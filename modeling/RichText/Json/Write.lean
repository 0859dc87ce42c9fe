import RichText.Json
import RichText.Text.Digit

namespace RichText.Json

def ofString (s : String) : Json :=
  .string (some s)

def ofStrings (ss : List String) : Json :=
  .array (ss.map ofString)

def ofNat (n : Nat) : Json :=
  .number (toString n)

def escape (c : Char) : List Char :=
  if c = '"' then ['\\', '"']
  else if c = '\\' then ['\\', '\\']
  else if c = '\x08' then ['\\', 'b']
  else if c = '\x0c' then ['\\', 'f']
  else if c = '\n' then ['\\', 'n']
  else if c = '\r' then ['\\', 'r']
  else if c = '\t' then ['\\', 't']
  else if c.toNat < 32 then
    "\\u00".toList ++ [Text.hexDigit (c.toNat / 16), Text.hexDigit (c.toNat % 16)]
  else [c]

def quote (s : String) : String :=
  String.ofList ('"' :: s.toList.flatMap escape ++ ['"'])

-- A string of which half of a pair is missing is written as a replacement character.
def quoteAny (s : Option String) : String :=
  quote (s.getD "\ufffd")

mutual

def compact : Json → String
  | .null => "null"
  | .bool b => if b then "true" else "false"
  | .number literal => literal
  | .string s => quoteAny s
  | .array items => "[" ++ String.intercalate "," (compactItems items) ++ "]"
  | .object members => "\x7b" ++ String.intercalate "," (compactMembers members) ++ "\x7d"

def compactItems : List Json → List String
  | [] => []
  | item :: items => item.compact :: compactItems items

def compactMembers : List (Option String × Json) → List String
  | [] => []
  | (key, value) :: members => (quoteAny key ++ ":" ++ value.compact) :: compactMembers members

end

-- A bracketed list with an entry a line. Nothing stands between the brackets of an empty one.
def block (indent : String) (opening closing : String) (entries : List String) : String :=
  if entries.isEmpty then opening ++ closing
  else
    let inner := indent ++ "  "
    let body := String.intercalate ",\n" (entries.map (inner ++ ·))
    opening ++ "\n" ++ body ++ "\n" ++ indent ++ closing

mutual

def prettyAt (indent : String) : Json → String
  | .array items => block indent "[" "]" (prettyItems (indent ++ "  ") items)
  | .object members => block indent "\x7b" "\x7d" (prettyMembers (indent ++ "  ") members)
  | value => value.compact

def prettyItems (indent : String) : List Json → List String
  | [] => []
  | item :: items => item.prettyAt indent :: prettyItems indent items

def prettyMembers (indent : String) : List (Option String × Json) → List String
  | [] => []
  | (key, value) :: members =>
    (quoteAny key ++ ": " ++ value.prettyAt indent) :: prettyMembers indent members

end

def pretty (value : Json) : String :=
  value.prettyAt ""

end RichText.Json
