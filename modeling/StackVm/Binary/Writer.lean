import StackVm.Leb128
import StackVm.Text.Utf8
import StackVm.Module.Basic
import StackVm.Binary.Format

/-!
# Writing modules

`Module.encode` writes a module as bytes: the opening eight bytes, then the
sections in order, each framed by its number and the size of its content.
Every integer has its shortest spelling, and equal locals that stand next to
each other become one declaration (`localRuns`). A custom section and one of
an unknown kind are written as the bytes they hold.
-/

namespace StackVm

namespace Bytes

/-- A word as four bytes, the least significant one first. -/
def ofWord (v : UInt32) : List UInt8 :=
  [v.toUInt8, (v >>> 8).toUInt8, (v >>> 16).toUInt8, (v >>> 24).toUInt8]

/-- A length, reduced to a word. -/
def ofLength (n : Nat) : List UInt8 :=
  Leb128.ofUInt32 (UInt32.ofNat n)

/-- A byte string behind its length. -/
def sized (bytes : List UInt8) : List UInt8 :=
  ofLength bytes.length ++ bytes

/-- The UTF-8 form of a name behind its length. -/
def ofName (name : String) : List UInt8 :=
  sized (Utf8.encode name)

/-- A vector: the number of its elements, then each of them. -/
def ofVector {α : Type} (element : α → List UInt8) (elements : List α) : List UInt8 :=
  ofLength elements.length ++ elements.flatMap element

/-- The codes of value types. -/
def ofTypes (types : List ValueType) : List UInt8 :=
  ofVector (fun t => [t.byte]) types

/-- A limit behind the flag that says whether it has a maximum. -/
def ofLimit (l : Limit) : List UInt8 :=
  match l.max with
  | none => 0 :: Leb128.ofUInt32 l.min
  | some max => 1 :: Leb128.ofUInt32 l.min ++ Leb128.ofUInt32 max

/-- A function type. -/
def ofFunctionType (t : FunctionType) : List UInt8 :=
  0x60 :: ofTypes t.parameters ++ ofTypes t.results

/-- A table. -/
def ofTable (t : Table) : List UInt8 :=
  t.element.byte :: ofLimit t.limit

/-- An export. -/
def ofExport (e : Export) : List UInt8 :=
  ofName e.name ++ e.kind.byte :: Leb128.ofUInt32 e.index

end Bytes

/-! ## Function bodies -/

/-- Puts one local in front of runs of locals. -/
def consRun (t : ValueType) : List (Nat × ValueType) → List (Nat × ValueType)
  | [] => [(1, t)]
  | (n, u) :: runs => if t = u then (n + 1, u) :: runs else (1, t) :: (n, u) :: runs

/-- Locals as runs of equal types, each with its length. -/
def localRuns (locals : List ValueType) : List (Nat × ValueType) :=
  locals.foldr consRun []

namespace Bytes

/-- The declaration of a run of locals. -/
def ofRun (run : Nat × ValueType) : List UInt8 :=
  ofLength run.1 ++ [run.2.byte]

/-- A function: declarations of its locals, then its body. -/
def ofFunction (f : Function) : List UInt8 :=
  ofVector ofRun (localRuns f.locals) ++ f.body

/-- An entry of the code section. -/
def ofCodeEntry (f : Function) : List UInt8 :=
  sized (ofFunction f)

end Bytes

/-! ## Sections and modules -/

/-- The content of a section. -/
def Section.content : Section → List UInt8
  | custom _ payload => payload
  | types entries => Bytes.ofVector Bytes.ofFunctionType entries
  | functions entries => Bytes.ofVector Leb128.ofUInt32 entries
  | tables entries => Bytes.ofVector Bytes.ofTable entries
  | memories entries => Bytes.ofVector Bytes.ofLimit entries
  | exports entries => Bytes.ofVector Bytes.ofExport entries
  | code entries => Bytes.ofVector Bytes.ofCodeEntry entries
  | unknown _ payload => payload

/-- A section in its frame. -/
def Section.encode (s : Section) : List UInt8 :=
  s.id :: Bytes.sized s.content

/-- A module as bytes. -/
def Module.encode (m : Module) : List UInt8 :=
  Bytes.ofWord magic ++ Bytes.ofWord version ++ m.sections.toList.flatMap Section.encode

end StackVm
