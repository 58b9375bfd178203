import StackVm.Module.Section
import StackVm.Machine.Opcode

/-!
# Events

What decoding and execution report about their progress. An event has a
severity (`Event.level`), a fixed text (`Event.message`) and named values
(`Event.fields`).
-/

namespace StackVm

/-- How much an event matters. -/
inductive Level
  | trace
  | debug
  | warn
  deriving DecidableEq, Repr

/-- The name of a level. -/
def Level.name : Level → String
  | trace => "trace"
  | debug => "debug"
  | warn => "warn"

/-- A value that an event carries. -/
inductive Datum
  | number (n : Nat)
  | text (s : String)
  deriving DecidableEq, Repr

/-- Something worth reporting. -/
inductive Event
  | trailingBytes (id : UInt8) (kind : SectionKind) (count : Nat)
  | decodedSection (id : UInt8) (kind : SectionKind) (offset : Nat) (size : UInt32)
  | decodedModule (name : String) (sections bytes : Nat)
  | parameterMismatch (name : String) (parameters preloaded : Nat)
  | executing (name : String) (functionIndex : UInt32)
  | entered (functionIndex : UInt32) (locals : Nat)
  | dispatch (functionIndex : UInt32) (cursor : Nat) (op : Opcode)
  | entryReturned
  | returnedToCaller (functionIndex : UInt32) (cursor : Nat)
  | completed (name : String) (results executed : Nat)
  deriving DecidableEq, Repr

namespace Event

/-- The severity of an event. -/
def level : Event → Level
  | trailingBytes .. | parameterMismatch .. => .warn
  | decodedSection .. | decodedModule .. | executing .. | completed .. => .debug
  | entered .. | dispatch .. | entryReturned | returnedToCaller .. => .trace

/-- The text of an event. -/
def message : Event → String
  | trailingBytes .. => "section has unconsumed trailing bytes"
  | decodedSection .. => "decoded section"
  | decodedModule .. => "decoded module"
  | parameterMismatch .. => "preloaded value count differs from the declared parameters"
  | executing .. => "executing"
  | entered .. => "entered function"
  | dispatch .. => "dispatch"
  | entryReturned => "entry function returned"
  | returnedToCaller .. => "returned to caller"
  | completed .. => "execution complete"

/-- The values of an event, named and in order. -/
def fields : Event → List (String × Datum)
  | trailingBytes id kind count =>
    [("id", .number id.toNat), ("kind", .text kind.name), ("trailing", .number count)]
  | decodedSection id kind offset size =>
    [("id", .number id.toNat), ("kind", .text kind.name), ("offset", .number offset),
      ("size", .number size.toNat)]
  | decodedModule name sections bytes =>
    [("name", .text name), ("sections", .number sections), ("bytes", .number bytes)]
  | parameterMismatch name parameters preloaded =>
    [("name", .text name), ("parameters", .number parameters), ("preloaded", .number preloaded)]
  | executing name functionIndex =>
    [("name", .text name), ("function_index", .number functionIndex.toNat)]
  | entered functionIndex locals =>
    [("function_index", .number functionIndex.toNat), ("locals", .number locals)]
  | dispatch functionIndex cursor op =>
    [("function_index", .number functionIndex.toNat), ("cursor", .number cursor),
      ("op", .text op.name)]
  | entryReturned => []
  | returnedToCaller functionIndex cursor =>
    [("function_index", .number functionIndex.toNat), ("cursor", .number cursor)]
  | completed name results executed =>
    [("name", .text name), ("results", .number results),
      ("instructions_executed", .number executed)]

end Event

end StackVm
