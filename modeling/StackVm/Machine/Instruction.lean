import StackVm.Machine.Opcode
import StackVm.Machine.Thread

/-!
# Instructions

What each instruction does to a thread (`Opcode.exec`). An instruction steps
over its own opcode and operand, so that a thread on which it succeeds points
at the next one; `unreachable` and the end of a body stay where they are. All
arithmetic is modulo 2³².
-/

namespace StackVm

/-- How an instruction succeeds. -/
inductive Progress
  /-- The pointer is at the next instruction. -/
  | next
  /-- The innermost call is over. The pointer is back at its caller, or at
  the end of the body if the host made the call. -/
  | returned
  deriving DecidableEq, Repr

namespace Exec

/-- Replaces the two `i32` on top by what `op` makes of them, the lower one
being its first argument. -/
def binary (op : Int32 → Int32 → Int32) : Exec Progress := do
  advance
  requireOperands 2
  let b ← onData Stack.popI32
  let a ← onData Stack.popI32
  onData (Stack.push (.i32 (op a b)))
  return .next

/-- Removes the locals of a frame from the data stack. What stands above them
stays. -/
def dropLocals (f : CallFrame) : Exec Unit :=
  let start := f.base - f.count
  if start < f.base then onData (Stack.discard start f.base) else pure ()

/-- Goes on at the caller of a frame, unless that is the host. -/
def resume (f : CallFrame) : Exec Unit :=
  match f.caller with
  | none => pure ()
  | some caller => jump caller

/-- Ends the innermost call. -/
def endBody : Exec Progress := do
  let f ← onCalls Stack.pop
  dropLocals f
  resume f
  return .returned

end Exec

open Exec in
/-- The effect of an instruction. -/
def Opcode.exec : Opcode → Exec Progress
  | unreachable => throw .unreachable
  | nop => do
    advance
    return .next
  | endBody => Exec.endBody
  | drop => do
    advance
    requireOperands 1
    let _ ← onData Stack.pop
    return .next
  | localGet => do
    advance
    let x ← unsignedOperand
    let v ← onData (Stack.peek (← localIndex x))
    onData (Stack.push v)
    return .next
  | localSet => do
    advance
    let x ← unsignedOperand
    requireOperands 1
    let v ← onData Stack.pop
    onData (Stack.poke (← localIndex x) v)
    return .next
  | localTee => do
    advance
    let x ← unsignedOperand
    requireOperands 1
    let v ← onData (Stack.peek 0)
    onData (Stack.poke (← localIndex x) v)
    return .next
  | i32Const => do
    advance
    let c ← signedOperand
    onData (Stack.push (.i32 c))
    return .next
  | i32Add => binary (· + ·)
  | i32Sub => binary (· - ·)
  | i32Mul => binary (· * ·)

end StackVm
