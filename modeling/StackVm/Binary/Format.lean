/-!
# Constants of the binary format

The words that open a module, and bounds on what it may hold. Counts and
sizes come from input that nobody vouches for, so each has a bound, and
reserving space for a vector never goes by its count alone
(`Bounds.preallocation`).
-/

namespace StackVm

/-- The word that opens a module: a zero byte, then `asm`. -/
def magic : UInt32 := 0x6d736100

/-- The version of the format. -/
def version : UInt32 := 1

/-- What the vectors of a module hold, where their count is bounded. -/
inductive Counted
  | types
  | valueTypes
  | functions
  | tables
  | exports
  | bodies
  deriving DecidableEq, Repr

namespace Counted

/-- The greatest count that is accepted. -/
def limit : Counted → Nat
  | types => 1000000
  | valueTypes => 1000
  | functions => 1000000
  | tables => 100000
  | exports => 1000000
  | bodies => 1000000

/-- What messages call the elements. -/
def noun : Counted → String
  | types => "types"
  | valueTypes => "value types"
  | functions => "functions"
  | tables => "tables"
  | exports => "exports"
  | bodies => "function bodies"

end Counted

namespace Bounds

/-- The most memories a module may declare. -/
def memories : Nat := 1

/-- The most bytes an entry of the code section may take. -/
def entrySize : Nat := 7654321

/-- The most locals a function may declare. -/
def locals : Nat := 50000

/-- How many slots to reserve for `count` elements of which `remaining` bytes
are left: an element takes a byte or more. -/
def preallocation (count : UInt32) (remaining : Nat) : Nat :=
  min count.toNat remaining

end Bounds

end StackVm
