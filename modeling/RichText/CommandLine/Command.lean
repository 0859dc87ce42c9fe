import RichText.CommandLine.Arguments
import RichText.Editor
import RichText.Text.Blank
import RichText.Text.Natural

namespace RichText.CommandLine

structure BlockInput where
  markup : String
  block : Nat

structure Change where
  style : String
  start : Nat
  stop : Nat

inductive Command where
  | lines (input : BlockInput)
  | count (input : BlockInput)
  | resolve (input : BlockInput) (offset : Nat)
  | styles (input : BlockInput) (start stop : Nat)
  | restyle (how : Editor.Command) (input : BlockInput) (change : Change)
  | runs (input : BlockInput)
  | paste (markup : String)
  | math (source : String) (isInline : Bool)
  | diagram (source : String)

structure Invocation where
  config : Option String
  command : Command

def offsets? (s : String) : Option (Nat × Nat) :=
  go [] s.toList
where
  go (before : List Char) : List Char → Option (Nat × Nat)
    | '.' :: '.' :: after => do
      return (← Text.natural? (Text.trim before.reverse), ← Text.natural? (Text.trim after))
    | c :: cs => go (c :: before) cs
    | [] => none

def isNatural (s : String) : Bool :=
  (Text.natural? s.toList).isSome

def isAnything (_ : String) : Bool :=
  true

def configOption : String × (String → Bool) :=
  ("config", (!·.isEmpty))

def rangeOption : String × (String → Bool) :=
  ("range", fun s => (offsets? s).isSome)

def blockOption : String × (String → Bool) :=
  ("block", isNatural)

def styleOption : String × (String → Bool) :=
  ("style", isAnything)

def general : Usage where
  takesCommand := true
  options := [configOption]
  flags := ["verbose"]

def usage (positionals : List (String → Bool)) (options : List (String × (String → Bool)))
    (flags : List String := []) : Usage where
  positionals
  options := configOption :: options
  flags := "verbose" :: flags

namespace Arguments

def natural? (as : Arguments) (name : String) : Option Nat :=
  (as.option? name).bind fun s => Text.natural? s.toList

def blockInput? (as : Arguments) : Option BlockInput := do
  return ⟨← as.positionals[0]?, (as.natural? "block").getD 0⟩

def change? (as : Arguments) : Option Change := do
  let (start, stop) ← (as.option? "range").bind offsets?
  return ⟨← as.option? "style", start, stop⟩

end Arguments

-- How the arguments of a command are read, and the command that they make if none is missing.
structure Reader where
  usage : Usage
  make : Arguments → Option Command

def blockReader (make : BlockInput → Command) : Reader where
  usage := usage [isAnything] [blockOption]
  make as := as.blockInput?.map make

def restyleReader (how : Editor.Command) : Reader where
  usage := usage [isAnything] [blockOption, styleOption, rangeOption]
  make as := do return .restyle how (← as.blockInput?) (← as.change?)

def reader? : String → Option Reader
  | "lines" => some (blockReader .lines)
  | "count" => some (blockReader .count)
  | "runs" => some (blockReader .runs)
  | "resolve" => some {
      usage := usage [isAnything, isNatural] [blockOption]
      make := fun as => do
        return .resolve (← as.blockInput?) (← Text.natural? (← as.positionals[1]?).toList) }
  | "styles" => some {
      usage := usage [isAnything] [blockOption, rangeOption]
      make := fun as => do
        let (start, stop) ← (as.option? "range").bind offsets?
        return .styles (← as.blockInput?) start stop }
  | "apply" => some (restyleReader .apply)
  | "clear" => some (restyleReader .clear)
  | "toggle" => some (restyleReader .toggle)
  | "paste" => some {
      usage := usage [isAnything] []
      make := fun as => as.positionals[0]?.map .paste }
  | "math" => some {
      usage := usage [isAnything] [] ["inline"]
      make := fun as => as.positionals[0]?.map (.math · (as.flags.contains "inline")) }
  | "diagram" => some {
      usage := usage [isAnything] []
      make := fun as => as.positionals[0]?.map .diagram }
  | _ => none

structure Outcome where
  status : Nat
  output : String
deriving DecidableEq, Repr

namespace Outcome

def print (s : String) : Outcome :=
  ⟨0, s ++ "\n"⟩

def failure : Outcome :=
  ⟨1, ""⟩

def misuse : Outcome :=
  ⟨2, ""⟩

def version (command : Option String) : Outcome :=
  print ("spindle-cli" ++ (command.map ("-" ++ ·)).getD "" ++ " 0.1.0")

def ofHalt (command : Option String) : Halt → Outcome
  | .misuse => misuse
  | .version => version command

end Outcome

def readInvocation (args : List String) : Except Outcome Invocation := do
  let (before, rest) ← (Arguments.read general {} args).mapError (.ofHalt none)
  match rest with
  | [] => .error .misuse
  | name :: rest =>
    match reader? name with
    | none => .error .misuse
    | some reader =>
      let (after, _) ← (Arguments.read reader.usage {} rest).mapError (.ofHalt (some name))
      match reader.make after with
      | none => .error .misuse
      | some command =>
        return { config := (after.option? "config").or (before.option? "config"), command }

end RichText.CommandLine
