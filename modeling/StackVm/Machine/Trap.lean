import StackVm.Text.Hex
import StackVm.Module.Types

/-!
# Traps

Why an instruction cannot go on. A trap carries no place; the loop that runs
instructions adds it.
-/

namespace StackVm

/-- Why an instruction cannot go on. -/
inductive Trap
  | stackUnderflow
  | stackOverflow (capacity : Nat)
  | invalidOpcode (found : UInt8)
  | unreachable
  | typeMismatch (expected actual : ValueType)
  /-- The body ends inside the operand of an instruction. -/
  | truncatedOperand
  /-- The body ends where an instruction should stand. -/
  | endOfBody
  /-- As many instructions were executed as may be. -/
  | budgetExhausted
  deriving DecidableEq, Repr

/-- The wording of each trap. -/
def Trap.message : Trap → String
  | stackUnderflow => "Stack underflow"
  | stackOverflow capacity => "Stack overflow: capacity of " ++ toString capacity ++ " exceeded"
  | invalidOpcode found => "Invalid opcode: 0x" ++ Hex.ofByte found
  | unreachable => "Unreachable executed"
  | typeMismatch expected actual =>
    "Type mismatch: expected " ++ expected.name ++ ", got " ++ actual.name
  | truncatedOperand => "Truncated instruction operand"
  | endOfBody => "Ran past the end of the function body"
  | budgetExhausted => "Instruction budget exhausted"

end StackVm
