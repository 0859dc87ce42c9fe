import RichText.Json.Read

namespace RichText

structure PasteConfig where
  -- The style tags that pasted text may bring along.
  allowedStyles : List String :=
    ["edt-b", "edt-u", "edt-i", "edt-sup", "edt-sub", "edt-code", "edt-strike", "edt-hl"]
deriving DecidableEq

namespace PasteConfig

def allows (c : PasteConfig) (tag : String) : Bool :=
  c.allowedStyles.contains tag

end PasteConfig

structure EmbedConfig where
  -- The encoded source of a diagram is appended to it.
  diagramBaseUrl : String := "https://www.plantuml.com/plantuml/svg/"
  -- Whether formulas are set as blocks rather than in a line.
  displayMath : Bool := true
deriving DecidableEq

structure Config where
  paste : PasteConfig := {}
  render : EmbedConfig := {}
deriving DecidableEq

namespace Config

structure Field (α : Type) where
  key : String
  set? : α → Json → Option α

-- Sets fields from the members of an object. No field may be set twice, and others are passed over.
def readMembers {α : Type} (fields : List (Field α)) (value : α) :
    List (Option String × Json) → Option α
  | [] => some value
  | (none, _) :: _ => none
  | (some key, member) :: members =>
    match fields.find? (·.key = key) with
    | none => readMembers fields value members
    | some f =>
      if members.any (·.1 = some key) then none
      else (f.set? value member).bind fun value => readMembers fields value members

-- Sets fields in their order from the items of an array. The last ones may be missing.
def readItems {α : Type} (value : α) : List (Field α) → List Json → Option α
  | _, [] => some value
  | [], _ :: _ => none
  | f :: fields, item :: items => do readItems (← f.set? value item) fields items

-- A record is an object or an array of its fields. What is not set keeps its default.
def readRecord {α : Type} (fields : List (Field α)) (default : α) : Json → Option α
  | .object members => readMembers fields default members
  | .array items => readItems default fields items
  | _ => none

def string? : Json → Option String
  | .string s => s
  | _ => none

def strings? : Json → Option (List String)
  | .array items => items.mapM string?
  | _ => none

def bool? : Json → Option Bool
  | .bool b => some b
  | _ => none

def pasteFields : List (Field PasteConfig) := [
  ⟨"allowed_styles", fun c j => (strings? j).map fun allowedStyles => { c with allowedStyles }⟩]

def embedFields : List (Field EmbedConfig) := [
  ⟨"diagram_base_url", fun c j => (string? j).map fun diagramBaseUrl => { c with diagramBaseUrl }⟩,
  ⟨"display_math", fun c j => (bool? j).map fun displayMath => { c with displayMath }⟩]

def fields : List (Field Config) := [
  ⟨"paste", fun c j => (readRecord pasteFields {} j).map fun paste => { c with paste }⟩,
  ⟨"render", fun c j => (readRecord embedFields {} j).map fun render => { c with render }⟩]

def ofJson? (j : Json) : Option Config :=
  readRecord fields {} j

def ofText? (text : String) : Option Config :=
  (Json.read? text).bind ofJson?

end Config

end RichText
