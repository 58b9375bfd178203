/-!
# Opcodes

The instructions of the machine, each with the byte it is written as
(`Opcode.byte`) and its name (`Opcode.name`).
-/

namespace StackVm

/-- The instructions of the machine. -/
inductive Opcode
  | unreachable
  | nop
  /-- The end of a function body, which returns from it. -/
  | endBody
  | drop
  | localGet
  | localSet
  | localTee
  | i32Const
  | i32Add
  | i32Sub
  | i32Mul
  deriving DecidableEq, Repr

namespace Opcode

/-- The byte of an instruction. -/
def byte : Opcode → UInt8
  | unreachable => 0x00
  | nop => 0x01
  | endBody => 0x0b
  | drop => 0x1a
  | localGet => 0x20
  | localSet => 0x21
  | localTee => 0x22
  | i32Const => 0x41
  | i32Add => 0x6a
  | i32Sub => 0x6b
  | i32Mul => 0x6c

/-- The instruction of a byte. -/
def ofByte? (b : UInt8) : Option Opcode :=
  if b = 0x00 then some unreachable
  else if b = 0x01 then some nop
  else if b = 0x0b then some endBody
  else if b = 0x1a then some drop
  else if b = 0x20 then some localGet
  else if b = 0x21 then some localSet
  else if b = 0x22 then some localTee
  else if b = 0x41 then some i32Const
  else if b = 0x6a then some i32Add
  else if b = 0x6b then some i32Sub
  else if b = 0x6c then some i32Mul
  else none

/-- The name of an instruction. -/
def name : Opcode → String
  | unreachable => "unreachable"
  | nop => "nop"
  | endBody => "end"
  | drop => "drop"
  | localGet => "local.get"
  | localSet => "local.set"
  | localTee => "local.tee"
  | i32Const => "i32.const"
  | i32Add => "i32.add"
  | i32Sub => "i32.sub"
  | i32Mul => "i32.mul"

@[simp] theorem ofByte?_byte (op : Opcode) : ofByte? op.byte = some op := by
  cases op <;> rfl

end Opcode

end StackVm
