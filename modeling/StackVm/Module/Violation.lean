import Std.Data.HashSet
import StackVm.Module.Basic

/-!
# Validity of a module

The structural rules that decoding does not enforce, and where a module
breaks them:

* a limit with a maximum other than zero has its minimum below or at it
  (`Limit.violation?`);
* a module declares at most one memory, and a section exports no name twice
  (`Section.violation?`);
* no two sections share a number from 1 to 12 (`Module.repeatedIds`).

`Module.violations` lists every breach, and `Module.validate` stops at the
first one.
-/

namespace StackVm

/-- The rule that the content of a section breaks. -/
inductive Breach
  | limitOrder (min max : UInt32)
  | memoryCount (count : Nat)
  | repeatedExport (name : String)
  deriving DecidableEq, Repr

/-- The wording of each breach. -/
def Breach.message : Breach → String
  | limitOrder min max =>
    "limit minimum " ++ toString min.toNat ++ " is larger than maximum " ++ toString max.toNat
  | memoryCount count => toString count ++ " memories declared, at most one is allowed"
  | repeatedExport name => "duplicate export name \"" ++ name ++ "\""

/-- One way in which a module is not valid. -/
inductive Violation
  | invalidSection (kind : SectionKind) (breach : Breach)
  | duplicateSection (id : UInt8)
  deriving DecidableEq, Repr

/-- The wording of each violation. -/
def Violation.message : Violation → String
  | invalidSection kind breach =>
    "invalid " ++ kind.name ++ " section: " ++ breach.message
  | duplicateSection id =>
    "section id " ++ toString id.toNat ++ " appears more than once"

/-- The minimum of a limit may not exceed its maximum; a maximum of zero
bounds nothing. -/
def Limit.breach? (l : Limit) : Option Breach :=
  match l.max with
  | some max => if max ≠ 0 ∧ l.min > max then some (.limitOrder l.min max) else none
  | none => none

/-- The violation of a limit that stands in a section of the given kind; one
that stands on its own is of kind `unknown`. -/
def Limit.violation? (l : Limit) (kind : SectionKind) : Option Violation :=
  l.breach?.map (.invalidSection kind)

/-- The first name that occurs in `seen` or earlier in the list. -/
def firstRepeated (seen : Std.HashSet String) : List String → Option String
  | [] => none
  | name :: rest =>
    if seen.contains name then some name else firstRepeated (seen.insert name) rest

/-- The first rule that the content of a section breaks. -/
def Section.breach? : Section → Option Breach
  | memories entries =>
    if entries.length > 1 then some (.memoryCount entries.length)
    else entries.findSome? Limit.breach?
  | tables entries => entries.findSome? (·.limit.breach?)
  | exports entries => (firstRepeated ∅ (entries.map Export.name)).map .repeatedExport
  | _ => none

/-- The violation by the content of a section. -/
def Section.violation? (s : Section) : Option Violation :=
  s.breach?.map (.invalidSection s.kind)

namespace Module

/-- The section numbers that may stand in a module only once. -/
def uniqueIds : List UInt8 :=
  [1, 2, 3, 4, 5, 6, 7, 8, 9, 10, 11, 12]

/-- The numbers among `uniqueIds` that two sections or more have, ascending. -/
def repeatedIds (m : Module) : List UInt8 :=
  uniqueIds.filter fun id => (m.sections.toList.countP (·.id == id)) > 1

/-- Every violation: repeated sections first, then section by section. -/
def violations (m : Module) : List Violation :=
  m.repeatedIds.map .duplicateSection ++ m.sections.toList.filterMap Section.violation?

/-- Succeeds if the module has no violation, and fails with the first one
otherwise. -/
def validate (m : Module) : Except Violation Unit :=
  match m.violations with
  | [] => .ok ()
  | first :: _ => .error first

end Module

end StackVm
