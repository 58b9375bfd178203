import StackVm.Machine.Turn
import StackVm.Proofs.Machine.TopFirst

/-!
# Threads with locals apart from operands

A machine that shares nothing between calls. Each call is an `Activation`
with its own pointer, its own array of locals and its own stack of operands;
the host has a list of operands too. Instructions act on the innermost
activation only (`Activation.exec`), and the end of a body hands its operands
to the caller (`SplitThread.leave`).

`SplitThread.flatten` lays such a machine out as a thread, on one data stack:
the operands of the host at the bottom, then for each call its locals and its
operands.
-/

namespace StackVm

/-- A call under way, with nothing of other calls in it. -/
structure Activation where
  /-- Where it stands. A caller stands where it goes on after the call. -/
  pointer : Pointer
  locals : List Value
  /-- The operands, the one at the top first. -/
  operands : List Value

namespace Activation

/-- The activation, `count` bytes further in the body. -/
def skip (a : Activation) (count : Nat) : Activation :=
  { a with pointer := a.pointer.advance count }

/-- The LEB128 integer behind the opcode, and the activation that stands
behind it. -/
def immediate (a : Activation) : Except Trap (Leb128.Groups × Activation) :=
  match Leb128.read (a.skip 1).pointer.rest with
  | some g => .ok (g, (a.skip 1).skip g.size)
  | none => .error .truncatedOperand

/-- The number of an `i32`. Other values have the wrong type. -/
def number : Value → Except Trap Int32
  | .i32 n => .ok n
  | v => .error (.typeMismatch .i32 v.type)

/-- Replaces two `i32` by what `op` makes of them. The one at the top, which is
the second argument, is looked at first. -/
def binary (op : Int32 → Int32 → Int32) (a : Activation) : Except Trap Activation :=
  match a.operands with
  | v₂ :: v₁ :: operands => do
    let n₂ ← number v₂
    let n₁ ← number v₁
    return { a.skip 1 with operands := .i32 (op n₁ n₂) :: operands }
  | _ => throw .stackUnderflow

/-- What an instruction makes of the activation that it is an instruction of;
nothing is left of it at the end of the body. `room` traps if the machine
cannot take one more value.

An operand that the body ends in comes before a missing value, a missing value
before a local that does not exist or a type that does not fit, and these
before a lack of room. -/
def exec (room : Except Trap Unit) (a : Activation) : Opcode → Except Trap (Option Activation)
  | .unreachable => throw .unreachable
  | .nop => return a.skip 1
  | .endBody => return none
  | .drop =>
    match a.operands with
    | [] => throw .stackUnderflow
    | _ :: operands => return some { a.skip 1 with operands }
  | .localGet => do
    let (x, a) ← a.immediate
    match a.locals[x.unsigned.toNat]? with
    | none => throw .stackUnderflow
    | some v =>
      room
      return some { a with operands := v :: a.operands }
  | .localSet => do
    let (x, a) ← a.immediate
    match a.operands with
    | [] => throw .stackUnderflow
    | v :: operands =>
      if x.unsigned.toNat < a.locals.length then
        return some { a with locals := a.locals.set x.unsigned.toNat v, operands }
      else throw .stackUnderflow
  | .localTee => do
    let (x, a) ← a.immediate
    match a.operands with
    | [] => throw .stackUnderflow
    | v :: _ =>
      if x.unsigned.toNat < a.locals.length then
        return some { a with locals := a.locals.set x.unsigned.toNat v }
      else throw .stackUnderflow
  | .i32Const => do
    let (c, a) ← a.immediate
    room
    return some { a with operands := .i32 c.signed :: a.operands }
  | .i32Add => some <$> a.binary (· + ·)
  | .i32Sub => some <$> a.binary (· - ·)
  | .i32Mul => some <$> a.binary (· * ·)

/-- The values of a call, the one at the top first. -/
def values (a : Activation) : List Value :=
  a.operands ++ a.locals.reverse

/-- The call frame of an activation that was called from `rest`, which stands
on the operands of the host. -/
def frame (host : List Value) (rest : List Activation) (a : Activation) : CallFrame where
  caller := rest.head?.map Activation.pointer
  base := a.locals.length + (rest.flatMap values ++ host).length
  count := a.locals.length

/-- The call frames of activations, the innermost first. -/
def frames (host : List Value) : List Activation → List CallFrame
  | [] => []
  | a :: rest => a.frame host rest :: frames host rest

end Activation

/-- The state of an execution, call by call. -/
structure SplitThread where
  /-- The calls under way, the innermost first. -/
  activations : List Activation
  /-- The operands of the host, the one at the top first. -/
  host : List Value
  /-- Where the call stood that ended last. -/
  idle : Pointer
  executed : Nat
  dataCapacity : Nat
  callCapacity : Nat

namespace SplitThread

/-- What one step comes to. -/
inductive Outcome
  | more (m : SplitThread)
  | returned (m : SplitThread)
  | faulted (f : Fault)

/-- A machine without calls and values. -/
def new (dataCapacity callCapacity : Nat) : SplitThread where
  activations := []
  host := []
  idle := .start 0 []
  executed := 0
  dataCapacity := dataCapacity
  callCapacity := callCapacity

/-- All values, the one at the top first. -/
def values (m : SplitThread) : List Value :=
  m.activations.flatMap Activation.values ++ m.host

/-- Traps if there is no room for one more value. -/
def room (m : SplitThread) : Except Trap Unit :=
  if m.values.length < m.dataCapacity then .ok () else .error (.stackOverflow m.dataCapacity)

/-- Where execution stands. -/
def current (m : SplitThread) : Pointer :=
  match m.activations with
  | [] => m.idle
  | a :: _ => a.pointer

/-- Puts operands, the one at the top first, on those of the innermost call,
or of the host. -/
def give (m : SplitThread) (operands : List Value) : SplitThread :=
  match m.activations with
  | [] => { m with host := operands ++ m.host }
  | a :: rest => { m with activations := { a with operands := operands ++ a.operands } :: rest }

/-- Ends a call. Its locals go, and its operands are the caller's. -/
def leave (m : SplitThread) (a : Activation) (rest : List Activation) : SplitThread :=
  { m with activations := rest, idle := a.pointer }.give a.operands

/-- Calls a function. The arguments and a zero for each declared local are its
locals. If there is no room for them, those that fit are operands of the
caller, and so are all of them if there is no room for the call. -/
def enter (functionIndex : UInt32) (f : Function) (arguments : List Value) (m : SplitThread) :
    Except Trap Unit × SplitThread :=
  let locals := arguments ++ f.locals.map Value.zero
  let room := m.dataCapacity - m.values.length
  if room < locals.length then
    (.error (.stackOverflow m.dataCapacity), m.give (locals.take room).reverse)
  else if m.callCapacity ≤ m.activations.length then
    (.error (.stackOverflow m.callCapacity), m.give locals.reverse)
  else
    let a := { pointer := .start functionIndex f.body, locals, operands := [] }
    (.ok (), { m with activations := a :: m.activations })

/-- What a step comes to, by what an instruction made of the innermost
activation. -/
def conclude (m : SplitThread) (a : Activation) (rest : List Activation) :
    Except Trap (Option Activation) → Outcome
  | .error trap => .faulted (a.pointer.fault trap)
  | .ok (some a') => .more { m with activations := a' :: rest }
  | .ok none => if rest.isEmpty then .returned (m.leave a rest) else .more (m.leave a rest)

/-- One step. The budget is checked first, then the end of the body, then the
opcode. -/
def step (budget : Option Nat) (m : SplitThread) : Outcome :=
  if budget.any (· ≤ m.executed) then .faulted (m.current.fault .budgetExhausted)
  else
    match m.current.current? with
    | none => .faulted (m.current.fault .endOfBody)
    | some b =>
      match Opcode.ofByte? b, m.activations with
      | none, _ => .faulted (m.current.fault (.invalidOpcode b))
      | some _, [] => .faulted (m.current.fault .stackUnderflow)
      | some op, a :: rest => { m with executed := m.executed + 1 }.conclude a rest (a.exec m.room op)

/-- The thread with the same calls and values on shared stacks. -/
def flatten (m : SplitThread) : Thread where
  calls := .ofTopFirst (Activation.frames m.host m.activations) m.callCapacity
  data := .ofTopFirst m.values m.dataCapacity
  current := m.current
  executed := m.executed

end SplitThread

end StackVm
