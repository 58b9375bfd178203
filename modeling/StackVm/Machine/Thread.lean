import StackVm.Leb128
import StackVm.Machine.Stack
import StackVm.Machine.Frame

/-!
# Threads

The state of an execution: calls, data, a pointer to the next instruction,
and a count of the instructions executed. An action on a thread (`Exec`) may
trap, and the thread it leaves then shows what it did before.

* `Exec.enter` sets up a call: the arguments and a zero for each declared
  local go onto the data stack, and a frame onto the call stack;
* `Exec.localIndex` finds a local of the innermost frame, and
  `Exec.requireOperands` keeps an instruction from reaching below its
  operands;
* `Exec.unsignedOperand` and `Exec.signedOperand` read what follows an
  opcode.
-/

namespace StackVm

/-- The state of an execution. -/
structure Thread where
  calls : Stack CallFrame
  data : Stack Value
  current : Pointer
  executed : Nat
  deriving DecidableEq, Repr

/-- A thread with empty stacks, in a function 0 without a body. -/
def Thread.new (dataCapacity callCapacity : Nat) : Thread where
  calls := .empty callCapacity
  data := .empty dataCapacity
  current := .start 0 []
  executed := 0

/-- The values that are left on the data stack, the one at the top first. -/
def Thread.results (t : Thread) : List Value :=
  t.data.toListTopFirst

/-- An action on a thread. -/
abbrev Exec := EStateM Trap Thread

namespace Exec

/-- An action on the data stack. -/
def onData {β : Type} (action : Stack.Action Value β) : Exec β := fun ⟨calls, data, current, executed⟩ =>
  match action data with
  | .ok b data => .ok b ⟨calls, data, current, executed⟩
  | .error e data => .error e ⟨calls, data, current, executed⟩

/-- An action on the call stack. -/
def onCalls {β : Type} (action : Stack.Action CallFrame β) : Exec β :=
  fun ⟨calls, data, current, executed⟩ =>
    match action calls with
    | .ok b calls => .ok b ⟨calls, data, current, executed⟩
    | .error e calls => .error e ⟨calls, data, current, executed⟩

/-- The depth of the data stack. -/
def depth : Exec Nat := fun t =>
  .ok t.data.depth t

/-- The innermost call frame. -/
def frame : Exec CallFrame :=
  onCalls (Stack.peek 0)

/-- Moves the pointer to the next byte. -/
def advance : Exec Unit := fun t =>
  .ok () { t with current := t.current.advance 1 }

/-- Moves the pointer elsewhere. -/
def jump (target : Pointer) : Exec Unit := fun t =>
  .ok () { t with current := target }

/-- How far below the top of the data stack a local of the innermost frame
stands. -/
def localIndex (index : UInt32) : Exec Nat := do
  let f ← frame
  match f.localSlot? index with
  | none => throw .stackUnderflow
  | some slot =>
    let depth ← depth
    if slot + 1 ≤ depth then
      return depth - (slot + 1)
    else
      throw .stackUnderflow

/-- Traps unless there are `count` values above the locals of the innermost
frame. -/
def requireOperands (count : Nat) : Exec Unit := do
  let f ← frame
  let depth ← depth
  if depth < f.base + count then
    throw .stackUnderflow

/-! ## Operands of instructions -/

/-- The groups of the LEB128 integer at the pointer. The pointer moves behind
it, or to the end of a body that ends inside it. -/
def operand : Exec Leb128.Groups := fun t =>
  let bytes := t.current.rest
  match Leb128.read bytes with
  | some g => .ok g { t with current := t.current.advance g.size }
  | none => .error .truncatedOperand { t with current := t.current.advance bytes.length }

/-- An unsigned operand. -/
def unsignedOperand : Exec UInt32 :=
  return (← operand).unsigned

/-- A signed operand. -/
def signedOperand : Exec Int32 :=
  return (← operand).signed

/-! ## Calls -/

/-- Calls a function from where the thread stands. The call of the outermost
frame is the host's. Values that were pushed before a trap stay. -/
def enter (functionIndex : UInt32) (f : Function) (arguments : List Value) : Exec Unit := do
  onData (Stack.pushAll arguments)
  onData (Stack.pushAll (f.locals.map Value.zero))
  let t ← get
  let caller := if t.calls.isEmpty then none else some t.current
  let count := arguments.length + f.locals.length
  onCalls (Stack.push { caller, base := t.data.depth, count })
  jump (.start functionIndex f.body)

end Exec

end StackVm
