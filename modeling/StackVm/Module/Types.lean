/-!
# Types and definitions of a module

What the sections of a module declare: value and reference types with their
codes on the wire, function signatures, size limits, tables, exports and
function bodies. Each code table comes as a pair, `byte` for the code of a
type and `ofByte?` for the type of a code, which are inverse to each other
(`ofByte?_eq_some_iff`).
-/

namespace StackVm

/-- The types a value may have. -/
inductive ValueType
  | i32
  | i64
  | f32
  | f64
  | funcref
  | externref
  deriving DecidableEq, Repr

namespace ValueType

/-- The code of a value type. -/
def byte : ValueType → UInt8
  | i32 => 0x7f
  | i64 => 0x7e
  | f32 => 0x7d
  | f64 => 0x7c
  | funcref => 0x70
  | externref => 0x6f

/-- The value type of a code. -/
def ofByte? (b : UInt8) : Option ValueType :=
  if b = 0x7f then some i32
  else if b = 0x7e then some i64
  else if b = 0x7d then some f32
  else if b = 0x7c then some f64
  else if b = 0x70 then some funcref
  else if b = 0x6f then some externref
  else none

/-- The name of a value type. -/
def name : ValueType → String
  | i32 => "i32"
  | i64 => "i64"
  | f32 => "f32"
  | f64 => "f64"
  | funcref => "funcref"
  | externref => "externref"

@[simp] theorem ofByte?_byte (t : ValueType) : ofByte? t.byte = some t := by
  cases t <;> rfl

theorem ofByte?_eq_some_iff {b : UInt8} {t : ValueType} : ofByte? b = some t ↔ b = t.byte := by
  constructor
  · intro h
    unfold ofByte? at h
    repeat' split at h
    all_goals cases h
    all_goals assumption
  · rintro rfl
    exact ofByte?_byte t

end ValueType

/-- The value types that are references, as the elements of tables are. -/
inductive RefType
  | funcref
  | externref
  deriving DecidableEq, Repr

namespace RefType

/-- A reference type among the value types. -/
def toValueType : RefType → ValueType
  | funcref => .funcref
  | externref => .externref

/-- The code of a reference type. -/
def byte (t : RefType) : UInt8 :=
  t.toValueType.byte

/-- The reference type of a code. -/
def ofByte? (b : UInt8) : Option RefType :=
  if b = 0x70 then some funcref
  else if b = 0x6f then some externref
  else none

@[simp] theorem ofByte?_byte (t : RefType) : ofByte? t.byte = some t := by
  cases t <;> rfl

theorem ofByte?_eq_some_iff {b : UInt8} {t : RefType} : ofByte? b = some t ↔ b = t.byte := by
  constructor
  · intro h
    unfold ofByte? at h
    repeat' split at h
    all_goals cases h
    all_goals assumption
  · rintro rfl
    exact ofByte?_byte t

end RefType

/-- What an export makes visible. -/
inductive ExportKind
  | func
  | table
  | memory
  | global
  deriving DecidableEq, Repr

namespace ExportKind

/-- The code of an export kind. -/
def byte : ExportKind → UInt8
  | func => 0
  | table => 1
  | memory => 2
  | global => 3

/-- The export kind of a code. -/
def ofByte? (b : UInt8) : Option ExportKind :=
  if b = 0 then some func
  else if b = 1 then some table
  else if b = 2 then some memory
  else if b = 3 then some global
  else none

/-- The name of an export kind. -/
def name : ExportKind → String
  | func => "func"
  | table => "table"
  | memory => "memory"
  | global => "global"

@[simp] theorem ofByte?_byte (k : ExportKind) : ofByte? k.byte = some k := by
  cases k <;> rfl

theorem ofByte?_eq_some_iff {b : UInt8} {k : ExportKind} : ofByte? b = some k ↔ b = k.byte := by
  constructor
  · intro h
    unfold ofByte? at h
    repeat' split at h
    all_goals cases h
    all_goals assumption
  · rintro rfl
    exact ofByte?_byte k

end ExportKind

/-- The size of a table or memory: where it starts, and how far it may grow
if that is bounded. -/
structure Limit where
  min : UInt32
  max : Option UInt32
  deriving DecidableEq, Repr

/-- The signature of a function. -/
structure FunctionType where
  parameters : List ValueType
  results : List ValueType
  deriving DecidableEq, Repr

/-- A table of references. -/
structure Table where
  element : RefType
  limit : Limit
  deriving DecidableEq, Repr

/-- A name for one of a module's definitions. -/
structure Export where
  name : String
  kind : ExportKind
  index : UInt32
  deriving DecidableEq, Repr

/-- The code of a function: the types of its declared locals, one per slot,
and its instructions as bytes. -/
structure Function where
  locals : List ValueType
  body : List UInt8
  deriving DecidableEq, Repr

end StackVm
