import RouteBook.Command.Run
import RouteBook.Settings.Logging

/-! The command line: arguments and variables in, one run, text and an exit code out. -/

namespace RouteBook

/-- The values of the variables that settings are read from. -/
def environment : IO Lookup := do
  let value ← IO.getEnv "SHAPEGATE_SLOW_MATCH_US"
  let manifest ← IO.getEnv "SHAPEGATE_MANIFEST"
  return fun name =>
    if name = "SHAPEGATE_SLOW_MATCH_US" then value.map String.toList
    else if name = "SHAPEGATE_MANIFEST" then manifest.map String.toList
    else none

/-- The file that a command reads, with what it holds. -/
def filesFor (settings : RuntimeSettings) (c : Command) : IO Command.Files := do
  let explicit := match c with
    | .check manifest => manifest
    | .route manifest _ _ _ => manifest
    | .validate .. => none
  match explicit <|> settings.manifestPath with
  | none => return fun _ => none
  | some path =>
    let content ← (some <$> IO.FS.readBinFile (String.ofList path)) <|> pure none
    return fun _ => content.map (·.toList)

def runCommand (c : Command) : IO UInt32 := do
  let settings := RuntimeSettings.ofLookup (← environment)
  match c.run (← filesFor settings c) settings with
  | .ok outcome =>
    IO.print (String.ofList outcome.output)
    return outcome.status.exitCode.toUInt32
  | .error failure =>
    IO.print (String.ofList failure.output)
    IO.eprintln (String.ofList ("Error: " ++ Text.join ": " failure.chain))
    return 1

end RouteBook

def main (args : List String) : IO UInt32 :=
  match RouteBook.Command.ofArguments (args.map String.toList) with
  | .ok c => RouteBook.runCommand c
  | .error .help | .error .version => return 0
  | .error _ => do
    IO.eprintln "usage: check | route | validate"
    return 2
