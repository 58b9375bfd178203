/-!
# Faults in JSON texts

What may be wrong with a JSON text, in three classes: it ends too early, it is
not JSON, or it is JSON that its reader has no use for.
-/

namespace StackVm

/-- What is wrong with a JSON text. -/
inductive JsonComplaint
  | endInList
  | endInObject
  | endInString
  | endInValue
  | expectedColon
  | expectedCommaOrBracket
  | expectedCommaOrBrace
  | expectedIdent
  | expectedValue
  | invalidEscape
  | invalidNumber
  | numberOutOfRange
  | controlCharacter
  | keyNotString
  | loneSurrogate
  | endOfHexEscape
  | trailingComma
  | trailingCharacters
  | invalidType
  | outOfRange
  | repeatedField (name : String)
  deriving DecidableEq, Repr

/-- Classes of complaints: the text ends too early, is not JSON, or is JSON
that does not fit. -/
inductive JsonClass
  | ending
  | grammar
  | data
  deriving DecidableEq, Repr

namespace JsonComplaint

/-- The class of a complaint. -/
def jsonClass : JsonComplaint → JsonClass
  | endInList | endInObject | endInString | endInValue => .ending
  | invalidType | outOfRange | repeatedField _ => .data
  | _ => .grammar

/-- The wording of a complaint. -/
def message : JsonComplaint → String
  | endInList => "EOF while parsing a list"
  | endInObject => "EOF while parsing an object"
  | endInString => "EOF while parsing a string"
  | endInValue => "EOF while parsing a value"
  | expectedColon => "expected `:`"
  | expectedCommaOrBracket => "expected `,` or `]`"
  | expectedCommaOrBrace => "expected `,` or `\x7d`"
  | expectedIdent => "expected ident"
  | expectedValue => "expected value"
  | invalidEscape => "invalid escape"
  | invalidNumber => "invalid number"
  | numberOutOfRange => "number out of range"
  | controlCharacter => "control character (\\u0000-\\u001F) found while parsing a string"
  | keyNotString => "key must be a string"
  | loneSurrogate => "lone leading surrogate in hex escape"
  | endOfHexEscape => "unexpected end of hex escape"
  | trailingComma => "trailing comma"
  | trailingCharacters => "trailing characters"
  | invalidType => "invalid type"
  | outOfRange => "invalid value"
  | repeatedField name => "duplicate field `" ++ name ++ "`"

end JsonComplaint

/-- A complaint about a text, of which `rest` was not read yet. -/
structure JsonFault where
  complaint : JsonComplaint
  rest : List Char
  deriving DecidableEq, Repr

end StackVm
