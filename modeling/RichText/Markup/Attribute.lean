import RichText.Markup.Entity

namespace RichText.Markup

def isSpace (c : Char) : Bool :=
  c = ' ' || c = '\t' || c = '\r' || c = '\n'

structure Attribute where
  key : List Char
  -- As written, with references not yet replaced. Empty where none is given.
  value : List Char

namespace Attribute

-- A key and what follows it. It may begin with any character, an equals sign too.
def readKey : List Char → List Char × List Char
  | [] => ([], [])
  | c :: cs =>
    let isInner (c : Char) := c ≠ '=' && !isSpace c
    (c :: cs.takeWhile isInner, cs.dropWhile isInner)

def readValue? (cs : List Char) : Option (List Char × List Char) :=
  match cs.dropWhile isSpace with
  | [] => none
  | c :: rest =>
    if c = '"' || c = '\'' then
      match rest.dropWhile (· ≠ c) with
      | [] => none
      | _ :: after => some (rest.takeWhile (· ≠ c), after)
    else some ((c :: rest).takeWhile (!isSpace ·), (c :: rest).dropWhile (!isSpace ·))

-- Reads the attributes of a tag. A key that was read before is passed over: reading goes on at the
-- next space after its equals sign. Nothing is read after a value that is missing or not closed.
def readAll (fuel : Nat) (seen : List (List Char)) (cs : List Char) : List Attribute :=
  match fuel, cs.dropWhile isSpace with
  | 0, _ | _, [] => []
  | fuel + 1, c :: cs =>
    let (key, rest) := readKey (c :: cs)
    let isNew := !seen.contains key
    match rest.dropWhile isSpace with
    | '=' :: rest =>
      if isNew then match readValue? rest with
        | some (value, rest) => ⟨key, value⟩ :: readAll fuel (key :: seen) rest
        | none => []
      else readAll fuel seen (rest.dropWhile (!isSpace ·))
    | rest =>
      if isNew then ⟨key, []⟩ :: readAll fuel (key :: seen) rest
      else readAll fuel seen rest

-- The attributes in what follows the name of a tag. Each takes at least one character.
def ofList (cs : List Char) : List Attribute :=
  readAll cs.length [] cs

def name (a : Attribute) : String :=
  String.ofList (a.key.map Char.toLower)

def text (a : Attribute) : List Char :=
  decode a.value

end RichText.Markup.Attribute
