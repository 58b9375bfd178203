import StackVm.Text.HexFloat
import StackVm.Module.Types

/-!
# Values

What the machine computes with. A floating point number is the word that
stands for it, so every NaN keeps its bits; `Value.equal` compares numbers as
numbers. `Value.zero` is what a declared local starts with, and
`Value.render` the text of a value.
-/

namespace StackVm

/-- A value of one of the value types. -/
inductive Value
  | i32 (v : Int32)
  | i64 (v : Int64)
  /-- A number in the format `binary32`. -/
  | f32 (word : UInt32)
  /-- A number in the format `binary64`. -/
  | f64 (word : UInt64)
  /-- A reference to a function, or null. -/
  | funcref (index : Option UInt32)
  /-- A reference to something of the host's, or null. -/
  | externref (index : Option UInt32)
  deriving DecidableEq, Repr

namespace Value

/-- The type of a value. -/
def type : Value → ValueType
  | i32 _ => .i32
  | i64 _ => .i64
  | f32 _ => .f32
  | f64 _ => .f64
  | funcref _ => .funcref
  | externref _ => .externref

/-- The zero of a type; for references it is null. -/
def zero : ValueType → Value
  | .i32 => .i32 0
  | .i64 => .i64 0
  | .f32 => .f32 0
  | .f64 => .f64 0
  | .funcref => .funcref none
  | .externref => .externref none

@[simp] theorem type_zero (t : ValueType) : (zero t).type = t := by
  cases t <;> rfl

/-- The number of an `i32`. -/
def asI32? : Value → Option Int32
  | i32 v => some v
  | _ => none

/-- The number of an `i64`. -/
def asI64? : Value → Option Int64
  | i64 v => some v
  | _ => none

/-- The word of an `f32`. -/
def asF32? : Value → Option UInt32
  | f32 word => some word
  | _ => none

/-- The word of an `f64`. -/
def asF64? : Value → Option UInt64
  | f64 word => some word
  | _ => none

/-- Equality of what two values stand for: values of different types differ,
and floating point numbers compare as numbers, so that a NaN differs from
itself and the two zeros are equal. -/
def equal : Value → Value → Bool
  | f32 a, f32 b => BinaryFormat.binary32.equal a.toNat b.toNat
  | f64 a, f64 b => BinaryFormat.binary64.equal a.toNat b.toNat
  | a, b => a == b

/-- A reference by number, or `null`. -/
def renderReference : Option UInt32 → String
  | none => "null"
  | some index => toString index.toNat

/-- The text of a value: its type, a colon, and what it is. -/
def render (v : Value) : String :=
  let text :=
    match v with
    | i32 v => toString v.toInt
    | i64 v => toString v.toInt
    | f32 word => BinaryFormat.binary32.hexText word.toNat
    | f64 word => BinaryFormat.binary64.hexText word.toNat
    | funcref index => renderReference index
    | externref index => renderReference index
  v.type.name ++ ":" ++ text

end Value

end StackVm
