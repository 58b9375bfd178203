import Std.Data.HashMap
import StackVm.Module.Section

/-!
# Modules

A module is its sections in the order they were met, repetitions included,
each with the range of bytes it was read from. An index from section kinds to
places in that order answers lookups:

* `Module.push` appends a section, `Module.ofSections` builds a module whose
  sections were read from nowhere;
* `Module.sectionsOf` gives all sections of a kind, and `Module.find?` the
  last one, which is the one that counts;
* the typed accessors (`Module.types?`, …) open that section;
* `Module.findExport?`, `Module.functionType?` and `Module.functionName?`
  combine them.
-/

namespace StackVm

/-- A range of bytes: `start` is its first byte, and `stop` the one after its
last. -/
structure Span where
  start : Nat
  stop : Nat
  deriving DecidableEq, Repr

/-- The number of bytes in a range. -/
def Span.length (s : Span) : Nat :=
  s.stop - s.start

/-- A module, named for diagnostics. -/
structure Module where
  name : String
  /-- The sections in the order they were met. -/
  sections : Array Section
  /-- Where each section was read from. -/
  spans : Array Span
  /-- The places of the sections of each kind, in order. -/
  index : Std.HashMap SectionKind (Array Nat)

namespace Module

/-- The module without sections. -/
def empty (name : String) : Module :=
  { name, sections := #[], spans := #[], index := ∅ }

/-- The places of the sections of a kind. -/
def places (m : Module) (kind : SectionKind) : Array Nat :=
  m.index.getD kind #[]

/-- Appends a section that was read from `span`. -/
def push (m : Module) (s : Section) (span : Span) : Module :=
  { m with
    sections := m.sections.push s
    spans := m.spans.push span
    index := m.index.insert s.kind ((m.places s.kind).push m.sections.size) }

/-- A module of the given sections, all of them at the empty range. -/
def ofSections (name : String) (sections : List Section) : Module :=
  sections.foldl (fun m s => m.push s ⟨0, 0⟩) (empty name)

/-- The sections of a kind, in order. -/
def sectionsOf (m : Module) (kind : SectionKind) : List Section :=
  (m.places kind).toList.filterMap (m.sections[·]?)

/-- The last section of a kind. -/
def find? (m : Module) (kind : SectionKind) : Option Section :=
  (m.places kind).back?.bind (m.sections[·]?)

/-! ## Typed accessors -/

/-- The signatures of the last type section. -/
def types? (m : Module) : Option (List FunctionType) :=
  match m.find? .types with
  | some (.types entries) => some entries
  | _ => none

/-- The signature indices of the last function section. -/
def functions? (m : Module) : Option (List UInt32) :=
  match m.find? .functions with
  | some (.functions entries) => some entries
  | _ => none

/-- The tables of the last table section. -/
def tables? (m : Module) : Option (List Table) :=
  match m.find? .tables with
  | some (.tables entries) => some entries
  | _ => none

/-- The memories of the last memory section. -/
def memories? (m : Module) : Option (List Limit) :=
  match m.find? .memories with
  | some (.memories entries) => some entries
  | _ => none

/-- The exports of the last export section. -/
def exports? (m : Module) : Option (List Export) :=
  match m.find? .exports with
  | some (.exports entries) => some entries
  | _ => none

/-- The functions of the last code section. -/
def code? (m : Module) : Option (List Function) :=
  match m.find? .code with
  | some (.code entries) => some entries
  | _ => none

/-- The custom sections, in order: the name and the payload of each. -/
def customs (m : Module) : List (String × List UInt8) :=
  (m.sectionsOf .custom).filterMap fun
    | .custom name payload => some (name, payload)
    | _ => none

/-- The names of all custom sections, in order. -/
def customNames (m : Module) : List String :=
  m.customs.map Prod.fst

/-! ## Definitions by name and index -/

/-- The first export of a name. -/
def findExport? (m : Module) (name : String) : Option Export := do
  (← m.exports?).find? (·.name == name)

/-- The code of a function. -/
def function? (m : Module) (index : UInt32) : Option Function := do
  (← m.code?)[index.toNat]?

/-- The declared signature of a function. -/
def functionType? (m : Module) (index : UInt32) : Option FunctionType := do
  let typeIndex ← (← m.functions?)[index.toNat]?
  (← m.types?)[typeIndex.toNat]?

/-- The first name a function is exported under. -/
def functionName? (m : Module) (index : UInt32) : Option String := do
  let found ← (← m.exports?).find? fun e => e.kind == .func && e.index == index
  return found.name

end Module

end StackVm
