import StackVm.Module.Types

/-!
# Sections

A section is one part of a module: a vector of definitions of one kind, a
custom section, whose content only its name structures, or a section of an
unknown kind, kept as the bytes it is. `Section.id` is the number a section
is written under, and `Section.kind` the class it belongs to.
-/

namespace StackVm

/-- The classes of sections. -/
inductive SectionKind
  | custom
  | types
  | functions
  | tables
  | memories
  | exports
  | code
  | unknown
  deriving DecidableEq, Hashable, Repr

/-- The name of a section kind. -/
def SectionKind.name : SectionKind → String
  | custom => "custom"
  | types => "type"
  | functions => "function"
  | tables => "table"
  | memories => "memory"
  | exports => "export"
  | code => "code"
  | unknown => "unknown"

/-- The kind of section that is written under a number. -/
def SectionKind.ofId (id : UInt8) : SectionKind :=
  if id = 0 then custom
  else if id = 1 then types
  else if id = 3 then functions
  else if id = 4 then tables
  else if id = 5 then memories
  else if id = 7 then exports
  else if id = 10 then code
  else unknown

/-- One section of a module. -/
inductive Section
  /-- The payload is the whole content, the name at its front included. -/
  | custom (name : String) (payload : List UInt8)
  | types (entries : List FunctionType)
  /-- Function by function, the index of its signature. -/
  | functions (entries : List UInt32)
  | tables (entries : List Table)
  | memories (entries : List Limit)
  | exports (entries : List Export)
  | code (entries : List Function)
  | unknown (id : UInt8) (payload : List UInt8)
  deriving DecidableEq, Repr

namespace Section

/-- The class a section belongs to. -/
def kind : Section → SectionKind
  | custom .. => .custom
  | types .. => .types
  | functions .. => .functions
  | tables .. => .tables
  | memories .. => .memories
  | exports .. => .exports
  | code .. => .code
  | unknown .. => .unknown

/-- The number a section is written under. -/
def id : Section → UInt8
  | custom .. => 0
  | types .. => 1
  | functions .. => 3
  | tables .. => 4
  | memories .. => 5
  | exports .. => 7
  | code .. => 10
  | unknown id _ => id

end Section

end StackVm
