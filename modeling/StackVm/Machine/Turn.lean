import StackVm.Machine.Instruction

/-!
# Turns of the loop

One turn of the loop that runs a thread (`Thread.turn`) fetches the
instruction at the pointer and executes it. A budget, the end of the body and
an unknown opcode stop the loop before anything is executed; a trap stops it
with the place where the instruction stood.
-/

namespace StackVm

/-- A trap at the place where it arose. -/
structure Fault where
  functionIndex : UInt32
  cursor : Nat
  trap : Trap
  deriving DecidableEq, Repr

/-- The wording of a fault. -/
def Fault.message (f : Fault) : String :=
  "Fault in function " ++ toString f.functionIndex.toNat ++ " at 0x" ++ Hex.ofNat f.cursor ++
    ": " ++ f.trap.message

/-- A trap at a pointer. -/
def Pointer.fault (p : Pointer) (trap : Trap) : Fault :=
  { functionIndex := p.functionIndex, cursor := p.cursor, trap }

/-- What one turn of the loop comes to. -/
inductive Turn
  | more (t : Thread)
  | stop (outcome : Except Fault Unit) (t : Thread)

namespace Thread

/-- The instruction to execute next. With a budget, no more instructions are
fetched than it allows, counting those that the thread has executed. -/
def fetch (budget : Option Nat) (t : Thread) : Except Trap Opcode :=
  if budget.any (· ≤ t.executed) then .error .budgetExhausted
  else
    match t.current.current? with
    | none => .error .endOfBody
    | some b =>
      match Opcode.ofByte? b with
      | none => .error (.invalidOpcode b)
      | some op => .ok op

/-- Executes an instruction and counts it. A trap is placed where the
instruction was. -/
def dispatch (t : Thread) (op : Opcode) : Turn :=
  let place := t.current
  match op.exec { t with executed := t.executed + 1 } with
  | .ok .next t => .more t
  | .ok .returned t => if t.calls.isEmpty then .stop (.ok ()) t else .more t
  | .error trap t => .stop (.error (place.fault trap)) t

/-- One turn of the loop. -/
def turn (budget : Option Nat) (t : Thread) : Turn :=
  match t.fetch budget with
  | .error trap => .stop (.error (t.current.fault trap)) t
  | .ok op => t.dispatch op

end Thread

end StackVm
