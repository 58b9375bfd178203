import StackVm.Binary.Format
import StackVm.Module.Section
import StackVm.Proofs.Leb128.Unsigned
import StackVm.Text.Utf8

/-!
# The grammar of modules

Which byte strings are the forms of a value, said without a reader. A form is
a relation between byte strings and values; integers have many spellings, so
a value has many forms:

* `SequenceForm`, `CountedForm`, `VectorForm`, `SizedForm`: elements one after
  another, behind their count, with a bound on the count, and a form behind
  its length in bytes;
* `NameForm` up to `EntryForm`: what the sections of a module hold;
* `ContentForm`: the content of a section by the number it is written under;
* `FrameForm`, `ModuleForm`: a section in its frame, and a whole module.
-/

namespace StackVm

open Leb128 (Spells)

/-- A relation between byte strings and the values they are forms of. -/
abbrev Form (α : Type) := List UInt8 → α → Prop

section

variable {α : Type}

/-- The forms of some values, one after another. -/
inductive SequenceForm (element : Form α) : List UInt8 → List α → Prop
  | nil : SequenceForm element [] []
  | cons {front back : List UInt8} {a : α} {entries : List α} :
    element front a → SequenceForm element back entries →
      SequenceForm element (front ++ back) (a :: entries)

/-- A number in any spelling, then so many elements. -/
inductive CountedForm (element : Form α) : List UInt8 → List α → Prop
  | intro {front back : List UInt8} {count : UInt32} {entries : List α} :
    Spells front count → count.toNat = entries.length → SequenceForm element back entries →
      CountedForm element (front ++ back) entries

/-- So many elements as a bound allows, behind their number. -/
def VectorForm (bound : Nat) (element : Form α) : Form (List α) := fun bytes entries =>
  CountedForm element bytes entries ∧ entries.length ≤ bound

/-- A number in any spelling, then a form of just so many bytes. -/
inductive SizedForm (inner : Form α) : List UInt8 → α → Prop
  | intro {front content : List UInt8} {size : UInt32} {a : α} :
    Spells front size → size.toNat = content.length → inner content a →
      SizedForm inner (front ++ content) a

end

/-! ## Definitions -/

/-- A name is its UTF-8 form behind its length. -/
def NameForm : Form String :=
  SizedForm fun bytes text => bytes = Utf8.encode text

/-- A limit is a flag, a minimum and, if the flag is not zero, a maximum. -/
inductive LimitForm : List UInt8 → Limit → Prop
  | unbounded {low : List UInt8} {min : UInt32} :
    Spells low min → LimitForm (0 :: low) { min, max := none }
  | bounded {flag : UInt8} {low high : List UInt8} {min max : UInt32} :
    flag ≠ 0 → Spells low min → Spells high max →
      LimitForm (flag :: (low ++ high)) { min, max := some max }

/-- A value type is its code. -/
def ValueTypeForm : Form ValueType := fun bytes t =>
  bytes = [t.byte]

/-- A function type is a leading byte, then its parameters and its results. -/
inductive FunctionTypeForm : List UInt8 → FunctionType → Prop
  | intro {front back : List UInt8} {parameters results : List ValueType} :
    VectorForm Counted.valueTypes.limit ValueTypeForm front parameters →
    VectorForm Counted.valueTypes.limit ValueTypeForm back results →
      FunctionTypeForm (0x60 :: (front ++ back)) { parameters, results }

/-- A table is the code of its elements, then its limit. -/
inductive TableForm : List UInt8 → Table → Prop
  | intro {bytes : List UInt8} {element : RefType} {limit : Limit} :
    LimitForm bytes limit → TableForm (element.byte :: bytes) { element, limit }

/-- An export is its name, the code of its kind, and an index. -/
inductive ExportForm : List UInt8 → Export → Prop
  | intro {front back : List UInt8} {name : String} {kind : ExportKind} {index : UInt32} :
    NameForm front name → Spells back index →
      ExportForm (front ++ kind.byte :: back) { name, kind, index }

/-! ## Function bodies -/

/-- The locals that runs of equal types stand for. -/
def expandRuns (runs : List (Nat × ValueType)) : List ValueType :=
  runs.flatMap fun run => List.replicate run.1 run.2

/-- A declaration of locals is their number, which may be zero, then their
type. -/
inductive DeclarationForm : List UInt8 → Nat × ValueType → Prop
  | intro {front : List UInt8} {count : UInt32} {t : ValueType} :
    Spells front count → DeclarationForm (front ++ [t.byte]) (count.toNat, t)

/-- A function is any declarations that expand to its locals, then its body. -/
inductive FunctionForm : List UInt8 → Function → Prop
  | intro {front body : List UInt8} {runs : List (Nat × ValueType)} :
    CountedForm DeclarationForm front runs → (expandRuns runs).length ≤ Bounds.locals →
      FunctionForm (front ++ body) { locals := expandRuns runs, body }

/-- An entry of the code section is a function behind its size, which is
bounded. -/
def EntryForm : Form Function :=
  SizedForm fun entry f => FunctionForm entry f ∧ entry.length ≤ Bounds.entrySize

/-! ## Sections and modules -/

/-- The content of the section with a given number. A vector may leave bytes
behind it, which mean nothing; of a custom section and one of an unknown kind
all bytes are kept. -/
inductive ContentForm : UInt8 → List UInt8 → Section → Prop
  | custom {front rest : List UInt8} {name : String} :
    NameForm front name → ContentForm 0 (front ++ rest) (.custom name (front ++ rest))
  | types {front trailing : List UInt8} {entries : List FunctionType} :
    VectorForm Counted.types.limit FunctionTypeForm front entries →
      ContentForm 1 (front ++ trailing) (.types entries)
  | functions {front trailing : List UInt8} {entries : List UInt32} :
    VectorForm Counted.functions.limit Spells front entries →
      ContentForm 3 (front ++ trailing) (.functions entries)
  | tables {front trailing : List UInt8} {entries : List Table} :
    VectorForm Counted.tables.limit TableForm front entries →
      ContentForm 4 (front ++ trailing) (.tables entries)
  | memories {front trailing : List UInt8} {entries : List Limit} :
    VectorForm Bounds.memories LimitForm front entries →
      ContentForm 5 (front ++ trailing) (.memories entries)
  | exports {front trailing : List UInt8} {entries : List Export} :
    VectorForm Counted.exports.limit ExportForm front entries →
      ContentForm 7 (front ++ trailing) (.exports entries)
  | code {front trailing : List UInt8} {entries : List Function} :
    VectorForm Counted.bodies.limit EntryForm front entries →
      ContentForm 10 (front ++ trailing) (.code entries)
  | unknown {id : UInt8} {content : List UInt8} :
    id ∉ [0, 1, 3, 4, 5, 7, 10] → ContentForm id content (.unknown id content)

/-- A frame is a number and, behind its size, the content of a section with
that number. -/
inductive FrameForm : List UInt8 → Section → Prop
  | intro {id : UInt8} {bytes : List UInt8} {s : Section} :
    SizedForm (ContentForm id) bytes s → FrameForm (id :: bytes) s

/-- A module is eight bytes that name the format and its version, then its
sections, one frame each. -/
inductive ModuleForm : List UInt8 → List Section → Prop
  | intro {frames : List UInt8} {sections : List Section} :
    SequenceForm FrameForm frames sections →
      ModuleForm ([0x00, 0x61, 0x73, 0x6d, 0x01, 0x00, 0x00, 0x00] ++ frames) sections

end StackVm
