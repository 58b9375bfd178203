import StackVm.Text.Json.Fault

/-!
# Strings in JSON

`Json.stringFrom` reads a string to its closing quote, one character after
another. Every escape is resolved, and the two halves of an escaped surrogate
pair have to stand next to each other; a reader that is not strict asks of
escapes only that they are well formed, and keeps nothing of them.
-/

namespace StackVm.Json

/-- The value of a hexadecimal digit. -/
def hexValue? (c : Char) : Option Nat :=
  if '0' ≤ c ∧ c ≤ '9' then some (c.toNat - '0'.toNat)
  else if 'a' ≤ c ∧ c ≤ 'f' then some (c.toNat - 'a'.toNat + 10)
  else if 'A' ≤ c ∧ c ≤ 'F' then some (c.toNat - 'A'.toNat + 10)
  else none

/-- Whether a text has fewer than four bytes in UTF-8. -/
def isShort (text : List Char) : Bool :=
  (String.ofList (text.take 4)).utf8ByteSize < 4

/-- Where the reader of a string stands. -/
inductive StringState
  | plain
  /-- Behind a backslash. -/
  | escape
  /-- Within a hexadecimal escape: `left` digits are to come, those before
  them have the value `unit`. With `high` it is the second half of a pair. -/
  | hex (left unit : Nat) (high : Option Nat)
  /-- Behind the first half of a pair. -/
  | pairBackslash (high : Nat)
  /-- Behind the backslash of the second half. -/
  | pairU (high : Nat)
  deriving DecidableEq, Repr

/-- The character of an escape of one letter. -/
def simpleEscape? : Char → Option Char
  | '"' => some '"'
  | '\\' => some '\\'
  | '/' => some '/'
  | 'b' => some '\x08'
  | 'f' => some '\x0c'
  | 'n' => some '\n'
  | 'r' => some '\r'
  | 't' => some '\t'
  | _ => none

/-- Whether a code unit is the first half of a surrogate pair. -/
def isHigh (unit : Nat) : Bool :=
  0xd800 ≤ unit && unit ≤ 0xdbff

/-- Whether a code unit is the second half of a surrogate pair. -/
def isLow (unit : Nat) : Bool :=
  0xdc00 ≤ unit && unit ≤ 0xdfff

/-- What a complete hexadecimal escape adds to a string, and where its reader
then stands. A reader that is not `strict` accepts any code unit. -/
def completeHex (strict : Bool) (unit : Nat) (high : Option Nat) :
    Except JsonComplaint (List Char × StringState) :=
  if !strict then .ok ([], .plain)
  else
    match high with
    | none =>
      if isLow unit then .error .loneSurrogate
      else if isHigh unit then .ok ([], .pairBackslash unit)
      else .ok ([Char.ofNat unit], .plain)
    | some high =>
      if isLow unit then
        .ok ([Char.ofNat ((high - 0xd800) * 1024 + (unit - 0xdc00) + 0x10000)], .plain)
      else .error .loneSurrogate

/-- Reads a string to its closing quote. The characters in `done` stand in
reverse. -/
def stringFrom (strict : Bool) (state : StringState) (done : List Char) :
    List Char → Except JsonFault (String × List Char)
  | [] => .error ⟨.endInString, []⟩
  | c :: rest =>
    match state with
    | .plain =>
      if c = '"' then .ok (String.ofList done.reverse, rest)
      else if c = '\\' then stringFrom strict .escape done rest
      else if c.toNat < 0x20 then .error ⟨.controlCharacter, rest⟩
      else stringFrom strict .plain (c :: done) rest
    | .escape =>
      if c = 'u' then
        if isShort rest then .error ⟨.endInString, []⟩
        else stringFrom strict (.hex 4 0 none) done rest
      else
        match simpleEscape? c with
        | some e => stringFrom strict .plain (e :: done) rest
        | none => .error ⟨.invalidEscape, rest⟩
    | .hex left unit high =>
      match hexValue? c with
      | none => .error ⟨.invalidEscape, rest⟩
      | some d =>
        let unit := unit * 16 + d
        if left > 1 then stringFrom strict (.hex (left - 1) unit high) done rest
        else
          match completeHex strict unit high with
          | .ok (added, state) => stringFrom strict state (added ++ done) rest
          | .error complaint => .error ⟨complaint, rest⟩
    | .pairBackslash high =>
      if c = '\\' then stringFrom strict (.pairU high) done rest
      else .error ⟨.endOfHexEscape, rest⟩
    | .pairU high =>
      if c = 'u' then
        if isShort rest then .error ⟨.endInString, []⟩
        else stringFrom strict (.hex 4 0 (some high)) done rest
      else .error ⟨.endOfHexEscape, rest⟩

end StackVm.Json
