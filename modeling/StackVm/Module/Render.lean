import StackVm.Text.Hex
import StackVm.Module.Basic

/-!
# The text of a module

`Module.render` writes a module for reading: a heading, then each section
with its kind, range and summary on one line and its entries below, one a
line (`Section.render`). Byte strings are shown by their first few bytes
(`preview`).
-/

namespace StackVm

/-- At most `count` leading bytes in hexadecimal, with an ellipsis if bytes
are left out. -/
def preview (bytes : List UInt8) (count : Nat) : String :=
  if bytes.length > count then Hex.ofBytes (bytes.take count) ++ " ..."
  else Hex.ofBytes bytes

/-- A text between double quotes, as it is. -/
def quoted (text : String) : String :=
  "\"" ++ text ++ "\""

/-- The names of types, with commas between them. -/
def joinTypes (types : List ValueType) : String :=
  ", ".intercalate (types.map ValueType.name)

/-- Parameters in parentheses, then the results: `nil` for none, and
parentheses around two or more. -/
def FunctionType.render (t : FunctionType) : String :=
  let results :=
    match t.results with
    | [] => "nil"
    | [result] => result.name
    | results => "(" ++ joinTypes results ++ ")"
  "(" ++ joinTypes t.parameters ++ ") -> " ++ results

/-- The bounds of a limit. -/
def Limit.render (l : Limit) : String :=
  let bound :=
    match l.max with
    | none => ""
    | some max => " max=" ++ toString max.toNat
  "initial=" ++ toString l.min.toNat ++ bound

/-- A range with its length, each as eight digits or more. -/
def Span.render (s : Span) : String :=
  "start=0x" ++ Hex.padded 8 s.start ++ " end=0x" ++ Hex.padded 8 s.stop ++
    " (size=0x" ++ Hex.padded 8 s.length ++ ")"

/-- The sizes of a function and the front of its body. -/
def Function.render (f : Function) : String :=
  "locals=" ++ toString f.locals.length ++ " size=" ++ toString f.body.length ++
    " body=" ++ preview f.body 16

namespace Section

/-- What the heading of a section says about its content. -/
def summary : Section → String
  | custom name _ => quoted name
  | types entries => count entries
  | functions entries => count entries
  | tables entries => count entries
  | memories entries => count entries
  | exports entries => count entries
  | code entries => count entries
  | unknown id _ => "id: 0x" ++ Hex.ofByte id
where
  /-- The number of entries. -/
  count {α : Type} (entries : List α) : String :=
    "count: " ++ toString entries.length

/-- One line per entry. -/
def lines {α : Type} (entries : List α) (line : Nat → α → String) : String :=
  String.join (entries.mapIdx fun i entry => " - " ++ line i entry ++ "\n")

/-- The entries of a section, one a line. -/
def render : Section → String
  | custom name payload =>
    " - custom " ++ quoted name ++ " size=" ++ toString payload.length ++ "\n"
  | types entries =>
    lines entries fun i t => "type[" ++ toString i ++ "] " ++ t.render
  | functions entries =>
    lines entries fun i t => "func[" ++ toString i ++ "] sig=" ++ toString t.toNat
  | tables entries =>
    lines entries fun i t =>
      "table[" ++ toString i ++ "] type=" ++ t.element.toValueType.name ++ " " ++ t.limit.render
  | memories entries =>
    lines entries fun i l => "memory[" ++ toString i ++ "] pages: " ++ l.render
  | exports entries =>
    lines entries fun _ e =>
      e.kind.name ++ "[" ++ toString e.index.toNat ++ "] -> " ++ quoted e.name
  | code entries =>
    lines entries fun i f => "func[" ++ toString i ++ "] " ++ f.render
  | unknown _ payload =>
    " - size=" ++ toString payload.length ++ ": " ++ preview payload 8 ++ "\n"

/-- The heading of a section: its kind, set to the right in nine columns, its
range and its summary. -/
def heading (s : Section) (span : Span) : String :=
  let kind := s.kind.name
  let indent := String.ofList (List.replicate (9 - kind.length) ' ')
  indent ++ kind ++ " " ++ span.render ++ " " ++ s.summary ++ "\n"

end Section

/-- The text of a module. -/
def Module.render (m : Module) : String :=
  let title :=
    "module " ++ quoted m.name ++ ": " ++ toString m.sections.size ++ " section(s)\n"
  let parts := (m.sections.zip m.spans).toList.map fun (s, span) => s.heading span ++ s.render
  title ++ String.join parts

end StackVm
