import StackVm.CommandLine

/-!
# The program

Reads the files that the arguments name, and does what
`StackVm.CommandLine.run` says.
-/

open StackVm StackVm.CommandLine

/-- The fault that an error of the system's means. Its number comes with
either sign. -/
def faultOfError : IO.Error → FileFault
  | .noFileOrDirectory _ code details | .inappropriateType _ code details
  | .permissionDenied _ code details | .invalidArgument _ code details
  | .resourceExhausted _ code details =>
    .ofNumber (if code > 0x7fffffff then 0 - code else code).toNat details
  | e => .other (toString e)

/-- What stands at a path of the file system. -/
def readPath (path : String) : IO File := do
  try
    return .regular (← IO.FS.readBinFile path).toList
  catch e =>
    return .ofFault (faultOfError e)

/-- Prints the report on the arguments, and exits with its code. -/
def main (arguments : List String) : IO UInt32 := do
  let paths :=
    match Options.none.parse arguments with
    | .ok o => o.path.toList ++ o.configPath.toList
    | .error _ => []
  let found ← paths.mapM fun path => return (path, ← readPath path)
  let report := CommandLine.run arguments fun path => (found.lookup path).getD (.ofFault .missing)
  IO.print report.stdout
  IO.eprint report.stderr
  return report.exit.toUInt32
