import StackVm.Text.Json.Quoted
import StackVm.Text.Json.Number

/-!
# Reading JSON

Actions that read JSON from the front of a text, for readers that know which
value they expect. Each fails at the first character that does not fit, so of
two faults in a text the earlier one is reported.

* `JsonReader.string`, `JsonReader.number`, `JsonReader.literal`: scalars;
* `JsonReader.mismatch`: the failure of a reader that expects another type;
* `JsonReader.nextElement`, `JsonReader.nextKey`: the punctuation of lists
  and objects;
* `JsonReader.skipValue`: any value, of which nothing is kept.
-/

namespace StackVm

/-- An action that reads JSON from the front of a text. -/
abbrev JsonReader := StateT (List Char) (Except JsonFault)

namespace JsonReader

open Json

/-- The blanks that may stand between the parts of a text. -/
def isBlank (c : Char) : Bool :=
  c == ' ' || c == '\n' || c == '\t' || c == '\r'

/-- Fails where the reader stands. -/
def fail {α : Type} (complaint : JsonComplaint) : JsonReader α := fun text =>
  .error ⟨complaint, text⟩

/-- The next character that is no blank, which stays where it is. -/
def peek : JsonReader (Option Char) := fun text =>
  let text := text.dropWhile isBlank
  .ok (text.head?, text)

/-- Passes over a character. -/
def eat : JsonReader Unit := fun text =>
  .ok ((), text.tail)

/-! ## Scalars -/

/-- The rest of a string, behind its opening quote. -/
def string : JsonReader String := fun text =>
  stringFrom true .plain [] text

/-- The rest of a string, of which nothing is kept. -/
def skipString : JsonReader Unit := fun text =>
  (stringFrom false .plain [] text).map fun (_, rest) => ((), rest)

/-- A number, behind its sign. -/
def number (negative : Bool) : JsonReader Number := fun text =>
  numberFrom negative text

/-- A number, behind its sign, of which nothing is kept. -/
def skipNumber : JsonReader Unit := fun text =>
  (skipNumberFrom text).map fun rest => ((), rest)

/-- The rest of a literal. -/
def literal : List Char → JsonReader Unit
  | [] => pure ()
  | expected :: more => fun text =>
    match text with
    | [] => .error ⟨.endInValue, []⟩
    | c :: rest =>
      if c = expected then literal more rest else .error ⟨.expectedIdent, rest⟩

/-- Fails because another type is expected than that of the value to come. A
scalar is read first, so that what is wrong with it comes first. -/
def mismatch {α : Type} : JsonReader α := do
  match ← peek with
  | some 'n' => eat; literal ['u', 'l', 'l']; fail .invalidType
  | some 't' => eat; literal ['r', 'u', 'e']; fail .invalidType
  | some 'f' => eat; literal ['a', 'l', 's', 'e']; fail .invalidType
  | some '-' => eat; let _ ← number true; fail .invalidType
  | some '"' => eat; let _ ← string; fail .invalidType
  | some '[' | some '\x7b' => fail .invalidType
  | some c =>
    if c.isDigit then
      let _ ← number false
      fail .invalidType
    else fail .expectedValue
  | none => fail .endInValue

/-! ## Lists and objects -/

/-- Whether a list has another element; the comma before it is read. -/
def nextElement (first : Bool) : JsonReader Bool := do
  match ← peek with
  | none => fail .endInList
  | some ']' => return false
  | some c =>
    if first then return true
    else if c = ',' then
      eat
      match ← peek with
      | none => fail .endInValue
      | some ']' => fail .trailingComma
      | some _ => return true
    else fail .expectedCommaOrBracket

/-- The end of a list that should have no further element. -/
def endList : JsonReader Unit := do
  match ← peek with
  | none => fail .endInList
  | some ']' => eat
  | some ',' =>
    eat
    match ← peek with
    | some ']' => fail .trailingComma
    | _ => fail .trailingCharacters
  | some _ => fail .trailingCharacters

/-- The key of the next member of an object, if there is one; the comma
before it is read. -/
def nextKey (first : Bool) : JsonReader (Option String) := do
  match ← peek with
  | none => fail .endInObject
  | some '\x7d' => return none
  | some c =>
    if first then
      if c = '"' then
        eat
        return some (← string)
      else fail .keyNotString
    else if c = ',' then
      eat
      match ← peek with
      | none => fail .endInValue
      | some '"' =>
        eat
        return some (← string)
      | some '\x7d' => fail .trailingComma
      | some _ => fail .keyNotString
    else fail .expectedCommaOrBrace

/-- The colon between a key and its value. -/
def colon : JsonReader Unit := do
  match ← peek with
  | none => fail .endInObject
  | some ':' => eat
  | some _ => fail .expectedColon

/-- The end of a text. -/
def endOfText : JsonReader Unit := do
  match ← peek with
  | none => return ()
  | some _ => fail .trailingCharacters

/-! ## Values of no interest -/

/-- What a value may stand in. -/
inductive Bracket
  | list
  | object
  deriving DecidableEq, Repr

/-- A key and the colon behind it. -/
def skipKey : JsonReader Unit := do
  match ← peek with
  | none => fail .endInObject
  | some '"' =>
    eat
    skipString
    colon
  | some _ => fail .keyNotString

/-- Behind a value that stands in the brackets `outer`, the innermost first:
closes those that end here, up to one that goes on with another value. -/
def skipClosing : List Bracket → JsonReader (List Bracket)
  | [] => return []
  | .list :: outer => do
    match ← peek with
    | none => fail .endInList
    | some ',' =>
      eat
      return .list :: outer
    | some ']' =>
      eat
      skipClosing outer
    | some _ => fail .expectedCommaOrBracket
  | .object :: outer => do
    match ← peek with
    | none => fail .endInObject
    | some ',' =>
      eat
      skipKey
      return .object :: outer
    | some '\x7d' =>
      eat
      skipClosing outer
    | some _ => fail .expectedCommaOrBrace

/-- Passes over a scalar, or into a list or object that is not empty. The
result are the brackets that the next value stands in, if one follows. -/
def skipStep (outer : List Bracket) : JsonReader (List Bracket) := do
  match ← peek with
  | none => fail .endInValue
  | some 'n' => eat; literal ['u', 'l', 'l']; skipClosing outer
  | some 't' => eat; literal ['r', 'u', 'e']; skipClosing outer
  | some 'f' => eat; literal ['a', 'l', 's', 'e']; skipClosing outer
  | some '-' => eat; skipNumber; skipClosing outer
  | some '"' => eat; skipString; skipClosing outer
  | some '[' =>
    eat
    match ← peek with
    | none => fail .endInList
    | some ']' => eat; skipClosing outer
    | some _ => return .list :: outer
  | some '\x7b' =>
    eat
    match ← peek with
    | none => fail .endInObject
    | some '\x7d' => eat; skipClosing outer
    | some _ => skipKey; return .object :: outer
  | some c =>
    if c.isDigit then
      skipNumber
      skipClosing outer
    else fail .expectedValue

/-- Passes over a value in the brackets `outer`, and over what follows until
all of them are closed. Every value takes a character, so as much `fuel` as
there are characters is enough. -/
def skipValue : Nat → List Bracket → JsonReader Unit
  | 0, _ => fail .endInValue
  | fuel + 1, outer => do
    match ← skipStep outer with
    | [] => return ()
    | outer => skipValue fuel outer

end JsonReader

end StackVm
