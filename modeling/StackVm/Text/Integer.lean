/-!
# Decimal integers of 32 bits

Reading a signed 32-bit integer from text (`parseInt32`): an optional sign,
then one or more decimal digits, whose value has to fit the type. A failure
says what is wrong (`IntegerFault`).
-/

namespace StackVm

/-- Why a text is not a 32-bit integer. -/
inductive IntegerFault
  | empty
  | invalidDigit
  | tooLarge
  | tooSmall
  deriving DecidableEq, Repr

namespace IntegerFault

/-- The wording of each fault. -/
def message : IntegerFault → String
  | empty => "cannot parse integer from empty string"
  | invalidDigit => "invalid digit found in string"
  | tooLarge => "number too large to fit in target type"
  | tooSmall => "number too small to fit in target type"

end IntegerFault

/-- The value of a decimal digit. -/
def digitValue? (c : Char) : Option Nat :=
  if '0' ≤ c ∧ c ≤ '9' then some (c.toNat - '0'.toNat) else none

/-- Reads digits from the left, `total` being the signed value of those
already read. The first character that is no digit, or the first digit with
which the value leaves the type, ends the reading. -/
def parseDigits (negative : Bool) (total : Int) : List Char → Except IntegerFault Int
  | [] => .ok total
  | c :: rest =>
    match digitValue? c with
    | none => .error .invalidDigit
    | some d =>
      let total := if negative then total * 10 - d else total * 10 + d
      if total > 2147483647 then .error .tooLarge
      else if total < -2147483648 then .error .tooSmall
      else parseDigits negative total rest

/-- Reads a 32-bit integer. A sign without digits is an invalid digit. -/
def parseInt32 (text : String) : Except IntegerFault Int32 :=
  Int32.ofInt <$>
    match text.toList with
    | [] => .error .empty
    | ['-'] | ['+'] => .error .invalidDigit
    | '-' :: digits => parseDigits true 0 digits
    | '+' :: digits => parseDigits false 0 digits
    | digits => parseDigits false 0 digits

end StackVm
