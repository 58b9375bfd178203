import StackVm.File
import StackVm.Interpreter
import StackVm.Text.Integer
import StackVm.Module.Render
import StackVm.Module.Violation
import StackVm.Binary.Stream

/-!
# The command line

What the program does with its arguments: it decodes a module file, and as
the options ask, dumps it, validates it, and executes one of its functions.
`CommandLine.run` works on whatever answers for files, and gives what the
program prints and the code it exits with.
-/

namespace StackVm.CommandLine

/-- How the program is used. -/
def usage : String :=
  "usage: wasmstack [options] <file.wasm>\n\n" ++
  "options:\n" ++
  "  -d          dump decoded sections\n" ++
  "  -v          validate the module\n" ++
  "  -x          execute the start function\n" ++
  "  -f NAME     start function name (default: main)\n" ++
  "  -p VALUE    preload an i32 onto the data stack (repeatable)\n" ++
  "  -c FILE     read the interpreter configuration from a JSON file\n" ++
  "  -V          verbose logging"

/-! ## Options -/

/-- What the arguments ask for. -/
structure Options where
  dump : Bool
  validate : Bool
  execute : Bool
  verbose : Bool
  startFunction : Option String
  /-- The arguments of the call, the last one first. -/
  preload : List Int32
  configPath : Option String
  path : Option String
  deriving DecidableEq, Repr

/-- Nothing is asked for. -/
def Options.none : Options where
  dump := false
  validate := false
  execute := false
  verbose := false
  startFunction := .none
  preload := []
  configPath := .none
  path := .none

/-- Why the arguments make no sense. -/
inductive UsageError
  | missingValue (flag : String)
  | badPreload (raw : String) (fault : IntegerFault)
  | unknownOption (flag : String)
  | secondFile
  deriving DecidableEq, Repr

/-- The wording of each error. -/
def UsageError.message : UsageError → String
  | missingValue flag => flag ++ " needs a value"
  | badPreload raw fault => "bad preload value \"" ++ raw ++ "\": " ++ fault.message
  | unknownOption flag => "unknown option " ++ flag
  | secondFile => "only one module file may be given"

/-- Reads arguments from the left into `o`. A later value of an option
replaces an earlier one, and preloads add up. -/
def Options.parse (o : Options) : List String → Except UsageError Options
  | [] => .ok o
  | "-d" :: rest => { o with dump := true }.parse rest
  | "-v" :: rest => { o with validate := true }.parse rest
  | "-x" :: rest => { o with execute := true }.parse rest
  | "-V" :: rest => { o with verbose := true }.parse rest
  | ["-f"] => .error (.missingValue "-f")
  | "-f" :: name :: rest => { o with startFunction := some name }.parse rest
  | ["-c"] => .error (.missingValue "-c")
  | "-c" :: path :: rest => { o with configPath := some path }.parse rest
  | ["-p"] => .error (.missingValue "-p")
  | "-p" :: raw :: rest =>
    match parseInt32 raw with
    | .error fault => .error (.badPreload raw fault)
    | .ok v => { o with preload := v :: o.preload }.parse rest
  | arg :: rest =>
    if arg.startsWith "-" then .error (.unknownOption arg)
    else if o.path.isSome then .error .secondFile
    else { o with path := some arg }.parse rest

/-! ## Running -/

/-- Reads a configuration from a file. -/
def configFrom (f : File) : Except ConfigError Config :=
  match f.text with
  | .error fault => .error (.unreadable fault.message)
  | .ok text => Config.ofJson text

/-- What the program prints, and the code it exits with. -/
structure Report where
  exit : Nat
  stdout : String
  stderr : String
  deriving DecidableEq, Repr

/-- The outcome of a part of the program: what it prints, and why the program
ends there, if it does. -/
structure Outcome where
  output : String
  failure : Option String

namespace Outcome

/-- Prints something. -/
def print (text : String) : Outcome :=
  { output := text, failure := none }

/-- Ends the program. -/
def fail (text : String) : Outcome :=
  { output := "", failure := some text }

/-- One part after another, unless the first one ends the program. -/
def andThen (first second : Outcome) : Outcome :=
  match first.failure with
  | some _ => first
  | none => { second with output := first.output ++ second.output }

end Outcome

/-- Validates a module. -/
def validation (path : String) (m : Module) : Outcome :=
  match m.violations with
  | [] => .print (path ++ ": valid\n")
  | violations =>
    let report := violations.map fun v => "\n  " ++ v.message
    .fail (path ++ ": validation failed" ++ String.join report)

/-- The configuration of an execution: that of the configuration file, or the
default one, with what the options put in its place. -/
def configuration (o : Options) (files : String → File) : Except String Config := do
  let c ←
    match o.configPath with
    | some path => (configFrom (files path)).mapError fun e => path ++ ": " ++ e.message
    | none => .ok (.new "main")
  return { c with
    startFunction := o.startFunction.getD c.startFunction
    initialValues := if o.preload.isEmpty then c.initialValues else o.preload.reverse }

/-- The text of a result. -/
def resultText (c : Config) (r : ExecutionResult) : String :=
  c.startFunction ++ ": [" ++ ", ".intercalate (r.values.map Value.render) ++ "] (" ++
    toString r.executed ++ " instructions)\n"

/-- Executes a function of a module. -/
def execution (o : Options) (files : String → File) (path : String) (m : Module) : Outcome :=
  match configuration o files with
  | .error text => .fail text
  | .ok c =>
    match Interpreter.ofConfig c with
    | .error e => .fail e.message
    | .ok vm =>
      match vm.execute m c with
      | .error e => .fail (path ++ ": " ++ e.message)
      | .ok r => .print (resultText c r)

/-- Does what the options ask. -/
def perform (o : Options) (files : String → File) : Outcome :=
  match o.path with
  | none => .fail usage
  | some path =>
    match (files path).source with
    | .error fault => .fail ("couldn't open " ++ path ++ ": " ++ fault.message)
    | .ok source =>
      match decodeNamed path source with
      | .error e => .fail (path ++ ": " ++ e.message)
      | .ok m =>
        let nothing := Outcome.print ""
        let dump := if o.dump then .print m.render else nothing
        let validate := if o.validate then validation path m else nothing
        let execute := if o.execute then execution o files path m else nothing
        (dump.andThen validate).andThen execute

/-- Runs the program on its arguments, with `files` telling what stands at a
path. -/
def run (arguments : List String) (files : String → File) : Report :=
  match Options.none.parse arguments with
  | .error e => { exit := 2, stdout := "", stderr := e.message ++ "\n\n" ++ usage ++ "\n" }
  | .ok o =>
    let outcome := perform o files
    match outcome.failure with
    | none => { exit := 0, stdout := outcome.output, stderr := "" }
    | some text => { exit := 1, stdout := outcome.output, stderr := text ++ "\n" }

end StackVm.CommandLine
