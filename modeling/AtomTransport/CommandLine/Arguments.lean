/-!
# Command-line arguments

The grammar of the command line: a command with its options, and a verbosity flag that may stand
anywhere. A long option takes its value after `=` or as the next argument, a short one directly after
its letter, after `=`, or as the next argument. A value in an argument of its own does not start with
a hyphen. Options are given at most once, unless they collect a list.
-/

namespace AtomTransport.CommandLine

structure RouteRequest where
  device : String := "logical"
  src : String
  dst : String
  avoid : List String := []
  heuristic : Option String := none
  deriving DecidableEq

structure CompileRequest where
  input : String
  layout : String
  output : Option String := none
  device : String := "logical"
  config : Option String := none
  strategy : Option String := none
  heuristic : Option String := none
  validate : Bool := true
  deriving DecidableEq

inductive Command where
  | describe (device : String) (json : Bool)
  | route (request : RouteRequest)
  | compile (request : CompileRequest)
  | version
  | versionNumber
  deriving DecidableEq

structure OptionSpec where
  long : String
  short : Option Char := none
  takesValue : Bool := true
  repeatable : Bool := false
  deriving DecidableEq

def verbose : OptionSpec := ⟨"verbose", some 'v', false, true⟩

def deviceOption : OptionSpec := ⟨"arch", some 'a', true, false⟩

def heuristicOption : OptionSpec := ⟨"heuristic", none, true, false⟩

def grammar : List (String × List OptionSpec) :=
  [("arch", [deviceOption, ⟨"json", none, false, false⟩]),
   ("route", [deviceOption, ⟨"from", none, true, false⟩, ⟨"to", none, true, false⟩,
      ⟨"avoid", none, true, true⟩, heuristicOption]),
   ("compile", [⟨"input", some 'i', true, false⟩, ⟨"layout", some 'l', true, false⟩,
      ⟨"output", some 'o', true, false⟩, deviceOption, ⟨"config", some 'c', true, false⟩,
      ⟨"strategy", some 's', true, false⟩, heuristicOption, ⟨"no-validate", none, false, false⟩]),
   ("version", [])]

structure Given where
  option : OptionSpec
  value : String
  deriving DecidableEq

def splitAtEquals (cs : List Char) : List Char × Option (List Char) :=
  match cs.dropWhile (· ≠ '=') with
  | [] => (cs, none)
  | _ :: rest => (cs.takeWhile (· ≠ '='), some rest)

def isValue (arg : String) : Bool :=
  match arg.toList with
  | '-' :: _ :: _ => false
  | _ => true

def takeValue (attached : Option (List Char)) (rest : List String) :
    Option (String × List String) :=
  match attached, rest with
  | some v, _ => some (String.ofList v, rest)
  | none, arg :: rest => if isValue arg then some (arg, rest) else none
  | none, [] => none

def readLong (specs : List OptionSpec) (cs : List Char) (rest : List String) :
    Option (Given × List String) := do
  let (name, attached) := splitAtEquals cs
  let spec ← specs.find? (·.long = String.ofList name)
  if spec.takesValue then
    let (v, rest) ← takeValue attached rest
    some (⟨spec, v⟩, rest)
  else if attached.isSome then none
  else some (⟨spec, ""⟩, rest)

/-- Reads the letters of a short argument: flags up to an option that takes the rest as its value. -/
def readShort (specs : List OptionSpec) :
    List Char → List String → Option (List Given × List String)
  | [], rest => some ([], rest)
  | c :: cs, rest => do
    let spec ← specs.find? (·.short = some c)
    if spec.takesValue then
      let attached := match cs with
        | [] => none
        | '=' :: v => some v
        | v => some v
      let (v, rest) ← takeValue attached rest
      some ([⟨spec, v⟩], rest)
    else
      let (more, rest) ← readShort specs cs rest
      some (⟨spec, ""⟩ :: more, rest)

/-- Reads the options of a command. A lone `--` ends them, and nothing may follow it. Every step
consumes an argument, so their number bounds the steps. -/
def readOptions (specs : List OptionSpec) : Nat → List String → Option (List Given)
  | _, [] => some []
  | 0, _ :: _ => none
  | fuel + 1, arg :: rest =>
    match arg.toList with
    | ['-', '-'] => if rest.isEmpty then some [] else none
    | '-' :: '-' :: name => do
      let (g, rest) ← readLong specs name rest
      some (g :: (← readOptions specs fuel rest))
    | '-' :: c :: letters => do
      let (gs, rest) ← readShort specs (c :: letters) rest
      some (gs ++ (← readOptions specs fuel rest))
    | _ => none

inductive Front where
  | versionNumber
  | command (args : List String)

def asksForVersion : List Char → Option Bool
  | [] => some false
  | 'v' :: letters => asksForVersion letters
  | 'V' :: _ => some true
  | _ :: _ => none

/-- Reads the flags in front of the command. What follows a request for the version is ignored. -/
def readFlags : List String → Option Front
  | [] => none
  | arg :: rest =>
    match arg.toList with
    | '-' :: '-' :: name =>
      if String.ofList name = verbose.long then readFlags rest
      else if String.ofList name = "version" then some .versionNumber
      else none
    | '-' :: c :: letters => do
      if ← asksForVersion (c :: letters) then some .versionNumber else readFlags rest
    | _ => some (.command (arg :: rest))

def admissible (given : List Given) : Bool :=
  let single := (given.filter (!·.option.repeatable)).map (·.option.long)
  single.eraseDups.length = single.length

def valueOf? (given : List Given) (name : String) : Option String :=
  (given.find? (·.option.long = name)).map (·.value)

def isGiven (given : List Given) (name : String) : Bool := given.any (·.option.long = name)

def listItems (s : String) : List String := s.splitOn ";"

def Command.ofOptions (name : String) (given : List Given) : Option Command :=
  let device := (valueOf? given "arch").getD "logical"
  match name with
  | "arch" => some (.describe device (isGiven given "json"))
  | "route" => do
    let src ← valueOf? given "from"
    let dst ← valueOf? given "to"
    let avoid := (given.filter (·.option.long = "avoid")).flatMap fun g => listItems g.value
    some (.route ⟨device, src, dst, avoid, valueOf? given "heuristic"⟩)
  | "compile" => do
    let input ← valueOf? given "input"
    let layout ← valueOf? given "layout"
    some (.compile ⟨input, layout, valueOf? given "output", device, valueOf? given "config",
      valueOf? given "strategy", valueOf? given "heuristic", !isGiven given "no-validate"⟩)
  | "version" => some .version
  | _ => none

def Command.parse? (args : List String) : Option Command := do
  match ← readFlags args with
  | .versionNumber => some .versionNumber
  | .command [] => none
  | .command (name :: options) =>
    let specs ← grammar.lookup name
    let given ← readOptions (verbose :: specs) (options.length + 1) options
    if admissible given then Command.ofOptions name given else none

end AtomTransport.CommandLine
