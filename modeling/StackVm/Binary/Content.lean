import StackVm.Binary.Reader

/-!
# The content of a section

`Section.read` decodes the content of one section by the number the section
is written under. Most contents are a vector, that is a count and so many
entries (`Read.sectionVector`); what follows the last entry is left unread, and
its length is reported beside the section. Offsets in failures count from the
start of the content.

Before the entries of a vector are read, space for them is asked for
(`Reservation`). What is done then is an argument of all readers of vectors
(`Read.Reserve`): `Section.read` grants it, and `Section.readWith` leaves it open.
-/

namespace StackVm

/-- Space that is asked for before the elements of a vector are read. -/
inductive Reservation
  /-- By the count of the vector, but by no more than the bytes that remain. -/
  | clamped (count : UInt32) (remaining : Nat)
  /-- By the count of the vector alone. -/
  | whole (count : UInt32)
  deriving DecidableEq, Repr

/-- How many elements the space is for. -/
def Reservation.slots : Reservation → Nat
  | clamped count remaining => Bounds.preallocation count remaining
  | whole count => count.toNat

namespace Read

/-- What is done where space for elements is reserved. -/
abbrev Reserve := (α : Type) → Reservation → Read (Array α)

/-- Space is always granted. -/
def allocate : Reserve := fun _ space =>
  pure (Array.emptyWithCapacity space.slots)

/-! ## Vectors -/

/-- The count of a vector, which may not exceed the bound on its elements. -/
def count (kind : SectionKind) (what : Counted) : Read UInt32 := do
  let offset ← position
  let count ← unsigned
  if count.toNat > what.limit then
    reject kind offset (.tooMany what count)
  return count

/-- A vector of what `element` reads, in a section of `size` bytes. Space for it is
reserved by its count, and never by more than the bytes that remain. -/
def vector {α : Type} (reserve : Reserve) (size : Nat) (kind : SectionKind) (what : Counted)
    (element : Read α) : Read (List α) := do
  let count ← count kind what
  let left ← remaining size
  let space ← reserve α (.clamped count left)
  return (← repeated element count.toNat space).toList

/-- A vector that makes up a section, the size of which is known to the reader of
its elements. -/
def sectionVector {α : Type} (reserve : Reserve) (kind : SectionKind) (what : Counted)
    (element : Nat → Read α) : Read (List α) := do
  let size ← size
  vector reserve size kind what (element size)

/-- A value type, in a section of the given kind. -/
def valueType (kind : SectionKind) : Read ValueType := do
  let offset ← position
  let code ← byte
  ofOption (ValueType.ofByte? code) (reject kind offset (.valueType code))

/-- A function type, in a section of `size` bytes. -/
def functionType (reserve : Reserve) (size : Nat) : Read FunctionType := do
  delimiter
  let parameters ← vector reserve size .types .valueTypes (valueType .types)
  let results ← vector reserve size .types .valueTypes (valueType .types)
  return { parameters, results }

/-- A table. -/
def table : Read Table := do
  let offset ← position
  let code ← byte
  let element ← ofOption (RefType.ofByte? code) (reject .tables offset (.refType code))
  return { element, limit := ← limit }

/-- The memories of a module, of which there may be one. Space is reserved for all
of them. -/
def memories (reserve : Reserve) : Read (List Limit) := do
  let offset ← position
  let count ← unsigned
  if count.toNat > Bounds.memories then
    reject .memories offset (.memoryCount count)
  let space ← reserve Limit (.whole count)
  return (← repeated limit count.toNat space).toList

/-- An export. -/
def exportEntry : Read Export := do
  let name ← name
  let offset ← position
  let code ← byte
  let kind ← ofOption (ExportKind.ofByte? code) (reject .exports offset (.exportKind code))
  return { name, kind, index := ← unsigned }

/-! ## Function bodies -/

/-- `count` declarations of locals, each so many of one type, behind the
`total` locals in `done`, which stand in reverse. The number of locals is
checked before their type is read. -/
def declarations : Nat → Nat → List ValueType → Read (List ValueType)
  | 0, _, done => pure done.reverse
  | count + 1, total, done => do
    let offset ← position
    let size ← unsigned
    let total := total + size.toNat
    if total > Bounds.locals then
      reject .code offset .tooManyLocals
    let t ← valueType .code
    declarations count total (List.replicate size.toNat t ++ done)

/-- A function: declarations of its locals, then instructions to the end. -/
def function : Read Function := do
  let count ← unsigned
  let locals ← declarations count.toNat 0 []
  let body ← toEnd
  return { locals, body }

/-- An entry of the code section: its size, and a function in just so many
bytes. -/
def codeEntry : Read Function := do
  let offset ← position
  let size ← unsigned
  if size.toNat > Bounds.entrySize then
    reject .code offset (.entryTooLong size)
  let start ← position
  let entry ← take size.toNat
  ofPart start (function.onBytes entry)

/-! ## Sections -/

/-- A custom section: a name, then anything. Its payload is all of
`content`. -/
def custom (content : List UInt8) : Read Section := do
  let name ← name
  let _ ← toEnd
  return .custom name content

/-- The section that `content` holds under the number `id`. -/
def sectionContent (reserve : Reserve) (id : UInt8) (content : List UInt8) : Read Section :=
  match SectionKind.ofId id with
  | .custom => custom content
  | .types => .types <$> sectionVector reserve .types .types (functionType reserve)
  | .functions => .functions <$> sectionVector reserve .functions .functions fun _ => unsigned
  | .tables => .tables <$> sectionVector reserve .tables .tables fun _ => table
  | .memories => .memories <$> memories reserve
  | .exports => .exports <$> sectionVector reserve .exports .exports fun _ => exportEntry
  | .code => .code <$> sectionVector reserve .code .bodies fun _ => codeEntry
  | .unknown => .unknown id <$> toEnd

end Read

/-- Decodes the content of the section with number `id`, with something to do wherever
space is reserved. The section comes with the number of bytes that it leaves unread. -/
def Section.readWith (reserve : Read.Reserve) (id : UInt8) (content : List UInt8) :
    Except DecodeError (Section × Nat) :=
  match Read.sectionContent reserve id content (.ofBytes content) with
  | .ok s r => .ok (s, r.bytes.length)
  | .error e _ => .error e

/-- Decodes the content of the section with number `id`. -/
def Section.read (id : UInt8) (content : List UInt8) : Except DecodeError (Section × Nat) :=
  Section.readWith Read.allocate id content

end StackVm
