import StackVm.Config
import StackVm.Module.Basic
import StackVm.Machine.Run

/-!
# Executing the functions of a module

An interpreter is a set of bounds (`Interpreter`), taken from a configuration
that passes its check. It calls an exported function of a module on a thread
of its own (`Interpreter.execute`), and returns what the function leaves on
the data stack. `Interpreter.log` lists what happens on the way.
-/

namespace StackVm

/-- Why an execution gave no result. -/
inductive ExecutionError
  /-- No export has the name. -/
  | missingFunction (name : String)
  /-- The export of the name is of another kind. -/
  | notFunction (name : String) (kind : ExportKind)
  /-- The function that is exported has no code. -/
  | noBody (name : String) (index : UInt32)
  | fault (fault : Fault)
  deriving DecidableEq, Repr

/-- The wording of each error. -/
def ExecutionError.message : ExecutionError → String
  | missingFunction name => "Missing function: no export named \"" ++ name ++ "\""
  | notFunction name kind =>
    "Missing start function \"" ++ name ++ "\": export is a " ++ kind.name ++ ", not a function"
  | noBody name index =>
    "Missing start function \"" ++ name ++ "\": function index " ++ toString index.toNat ++
      " has no body"
  | fault f => f.message

/-- What a function returned. -/
structure ExecutionResult where
  /-- The values left on the data stack, the one at the top first. -/
  values : List Value
  /-- The number of instructions executed. -/
  executed : Nat
  deriving DecidableEq, Repr

/-- The bounds of an execution. -/
structure Interpreter where
  dataCapacity : Nat
  callCapacity : Nat
  maxInstructions : Option Nat
  deriving DecidableEq, Repr

/-- The function that a module exports under a name, with its index. -/
def Module.startFunction (m : Module) (name : String) :
    Except ExecutionError (UInt32 × Function) :=
  match m.findExport? name with
  | none => .error (.missingFunction name)
  | some e =>
    if e.kind ≠ .func then .error (.notFunction name e.kind)
    else
      match m.function? e.index with
      | none => .error (.noBody name e.index)
      | some f => .ok (e.index, f)

namespace Interpreter

/-- The interpreter with the bounds of a configuration. -/
def ofConfig (c : Config) : Except ConfigError Interpreter := do
  c.check
  return {
    dataCapacity := c.dataCapacity
    callCapacity := c.callCapacity
    maxInstructions := c.maxInstructions }

/-- A new thread that has entered a function with the given arguments. -/
def enter (vm : Interpreter) (index : UInt32) (f : Function) (arguments : List Int32) :
    Except Fault Thread :=
  match Exec.enter index f (arguments.map .i32) (.new vm.dataCapacity vm.callCapacity) with
  | .ok () t => .ok t
  | .error trap _ => .error { functionIndex := index, cursor := 0, trap }

/-- Calls a function and returns its results. -/
def call (vm : Interpreter) (index : UInt32) (f : Function) (arguments : List Int32) :
    Except Fault ExecutionResult :=
  match vm.enter index f arguments with
  | .error fault => .error fault
  | .ok t =>
    match t.run vm.maxInstructions with
    | (.ok (), t) => .ok { values := t.results, executed := t.executed }
    | (.error fault, _) => .error fault

/-- Calls the function that a configuration names, with the arguments it
gives. The bounds are the interpreter's. -/
def execute (vm : Interpreter) (m : Module) (c : Config) : Except ExecutionError ExecutionResult :=
  match m.startFunction c.startFunction with
  | .error e => .error e
  | .ok (index, f) => (vm.call index f c.initialValues).mapError .fault

/-! ## Events -/

/-- A warning if a function is called with another number of arguments than
its signature has parameters. -/
def parameterEvents (m : Module) (c : Config) (index : UInt32) : List Event :=
  match m.functionType? index with
  | none => []
  | some t =>
    if t.parameters.length = c.initialValues.length then []
    else [.parameterMismatch c.startFunction t.parameters.length c.initialValues.length]

/-- The events of a call. -/
def callEvents (vm : Interpreter) (c : Config) (index : UInt32) (f : Function) : List Event :=
  match vm.enter index f c.initialValues with
  | .error _ => []
  | .ok t =>
    let closing :=
      match vm.call index f c.initialValues with
      | .ok r => [.completed c.startFunction r.values.length r.executed]
      | .error _ => []
    .entered index (c.initialValues.length + f.locals.length) ::
      t.log vm.maxInstructions ++ closing

/-- The events of an execution. -/
def log (vm : Interpreter) (m : Module) (c : Config) : List Event :=
  match m.startFunction c.startFunction with
  | .error _ => []
  | .ok (index, f) =>
    parameterEvents m c index ++ .executing c.startFunction index :: vm.callEvents c index f

end Interpreter

end StackVm
