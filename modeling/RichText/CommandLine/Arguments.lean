namespace RichText.CommandLine

structure Usage where
  takesCommand : Bool := false
  positionals : List (String → Bool) := []
  options : List (String × (String → Bool)) := []
  flags : List String := []

structure Arguments where
  positionals : List String := []
  options : List (String × String) := []
  flags : List String := []

inductive Halt where
  | misuse
  -- The version was asked for.
  | version
deriving DecidableEq, Repr

namespace Arguments

def option? (as : Arguments) (name : String) : Option String :=
  (as.options.find? (·.1 = name)).map (·.2)

def addPositional (u : Usage) (as : Arguments) (value : String) : Except Halt Arguments :=
  match u.positionals[as.positionals.length]? with
  | some check =>
    if check value then .ok { as with positionals := as.positionals ++ [value] } else .error .misuse
  | none => .error .misuse

def addOption (u : Usage) (as : Arguments) (name value : String) : Except Halt Arguments :=
  match u.options.find? (·.1 = name) with
  | some (_, check) =>
    if (as.option? name).isNone && check value then
      .ok { as with options := as.options ++ [(name, value)] }
    else .error .misuse
  | none => .error .misuse

def addFlag (u : Usage) (as : Arguments) (name : String) : Except Halt Arguments :=
  if u.flags.contains name && !as.flags.contains name then .ok { as with flags := name :: as.flags }
  else .error .misuse

def addLetters (u : Usage) (as : Arguments) : List Char → Except Halt Arguments
  | [] => .ok as
  | 'v' :: cs => do addLetters u (← addFlag u as "verbose") cs
  | 'V' :: _ => .error .version
  | _ => .error .misuse

def isHyphened (a : String) : Bool :=
  a.startsWith "-" && a ≠ "-"

-- The name of a long option, with its value if that is part of the argument.
def splitLong (a : String) : String × Option String :=
  let cs := a.toList.drop 2
  (String.ofList (cs.takeWhile (· ≠ '=')),
   match cs.dropWhile (· ≠ '=') with
    | _ :: value => some (String.ofList value)
    | [] => none)

-- Reads arguments. Where the name of a command may stand, reading ends before it, and what is left
-- comes back.
def read (u : Usage) (as : Arguments) : List String → Except Halt (Arguments × List String)
  | [] => .ok (as, [])
  | a :: rest =>
    if !isHyphened a then
      if u.takesCommand then .ok (as, a :: rest)
      else do read u (← addPositional u as a) rest
    else if a = "--" then do return (← rest.foldlM (addPositional u) as, [])
    else if a.startsWith "--" then
      match splitLong a, rest with
      | ("version", none), _ => .error .version
      | (name, some value), rest => do read u (← addOption u as name value) rest
      | (name, none), rest =>
        if u.flags.contains name then do read u (← addFlag u as name) rest
        else match rest with
          | value :: rest =>
            if isHyphened value then .error .misuse
            else do read u (← addOption u as name value) rest
          | [] => .error .misuse
    else do read u (← addLetters u as (a.toList.drop 1)) rest

end RichText.CommandLine.Arguments
