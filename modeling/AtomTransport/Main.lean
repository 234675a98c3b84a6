import AtomTransport.CommandLine

/-!
# The program

Reads the files that the arguments name, runs the command, and writes what it yields.
-/

namespace AtomTransport.CommandLine

def Command.inputs : Command → List String
  | .describe device _ => [device]
  | .route r => [r.device]
  | .compile r => [r.device, r.input, r.layout] ++ r.config.toList
  | .version => []
  | .versionNumber => []

def pathFault? : IO.Error → Option PathFault
  | .noFileOrDirectory _ code _ => PathFault.all.find? (·.code = code.toNat)
  | .inappropriateType _ code _ => PathFault.all.find? (·.code = code.toNat)
  | .invalidArgument _ code _ => PathFault.all.find? (·.code = code.toNat)
  | _ => none

def readEntry (path : String) : IO Entry := do
  try
    return .file (← IO.FS.readFile path)
  catch e =>
    return if pathFault? e = some .isDirectory then .directory else .missing

def tryWrite (path text : String) : IO (Option String) := do
  try
    IO.FS.writeFile path text
    return none
  catch e =>
    return some (((pathFault? e).map (·.message)).getD (toString e))

def finish : Outcome → IO UInt32
  | .usage => do
    IO.eprintln "usage: (arch | route | compile | version) [options]"
    return 2
  | .finished exit stdout stderr _ => do
    IO.print stdout
    IO.eprint stderr
    return exit.toUInt32

end AtomTransport.CommandLine

open AtomTransport.CommandLine in
/-- The entry point. If the output file cannot be written, the run is repeated with that knowledge,
so that it reports the failure. -/
def main (args : List String) : IO UInt32 := do
  let inputs := ((Command.parse? args).map (·.inputs)).getD []
  let entries ← inputs.mapM fun path => do return (path, ← readEntry path)
  let files : Files := { entry := fun path => (entries.lookup path).getD .missing }
  let outcome := run files args
  match outcome with
  | .finished _ _ _ (some (path, text)) =>
    match ← tryWrite path text with
    | none => finish outcome
    | some reason => finish (run { files with writeFault? := fun _ => some reason } args)
  | _ => finish outcome
