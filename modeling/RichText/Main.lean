import RichText.CommandLine.Run

open RichText.CommandLine

def readFile? (path : String) : IO (Option String) := do
  try
    return some (← IO.FS.readFile path)
  catch _ =>
    return none

def main (args : List String) : IO UInt32 := do
  let path := match readInvocation args with
    | .ok i => i.config
    | .error _ => none
  let config ← match path with
    | some path => readFile? path
    | none => pure none
  let input ← if args.contains "-" then (← IO.getStdin).readToEnd else pure ""
  let outcome := run { file? := fun _ => config, input } args
  IO.print outcome.output
  if outcome.status ≠ 0 then IO.eprintln "the command could not be carried out"
  return outcome.status.toUInt32
