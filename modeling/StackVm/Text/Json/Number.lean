import StackVm.Text.Json.Fault

/-!
# Numbers in JSON

`Json.numberFrom` reads a number: an integer of 64 bits, or a floating point
number, of which only the range is looked at. `Json.skipNumberFrom` passes
over a number of any size.
-/

namespace StackVm.Json

/-- A number: a natural number of 64 bits, a negative one, or one in floating
point. -/
inductive Number
  | natural (n : Nat)
  | negative (n : Int)
  | float
  deriving DecidableEq, Repr

/-- The greatest natural number. -/
def maxNatural : Nat := 0xffffffffffffffff

/-- Appends decimal digits to `value` while it stays a natural number of 64
bits, and counts the digits that are left over. -/
def appendDigits (value : Nat) : List Char → Nat × Nat
  | [] => (value, 0)
  | c :: rest =>
    let next := value * 10 + (c.toNat - '0'.toNat)
    if next > maxNatural then (value, rest.length + 1) else appendDigits next rest

/-- The natural number nearest to `n` that has 53 significant bits; of two
the one with an even significand. -/
def roundTo53 (n : Nat) : Nat :=
  let excess := n.log2 - 52
  let unit := 1 <<< excess
  let quotient := n / unit
  let remainder := n % unit
  let up := 2 * remainder > unit || 2 * remainder == unit && quotient % 2 == 1
  (if up then quotient + 1 else quotient) * unit

/-- Whether `significand × 10 ^ exponent` is beyond the floating point
numbers of 64 bits, computed in them. -/
def isOutOfRange (significand : Nat) (exponent : Int) : Bool :=
  significand != 0 && exponent ≥ 0 &&
    (exponent > 308 ||
      roundTo53 (roundTo53 significand * roundTo53 (Nat.pow 10 exponent.toNat)) ≥ 1 <<< 1024)

/-- The end of a floating point number. -/
def float (significand : Nat) (exponent : Int) (rest : List Char) :
    Except JsonFault (Number × List Char) :=
  if isOutOfRange significand exponent then .error ⟨.numberOutOfRange, rest⟩
  else .ok (.float, rest)

/-- Reads the exponent of a number, behind its mark. -/
def exponentFrom (significand : Nat) (exponent : Int) (text : List Char) :
    Except JsonFault (Number × List Char) :=
  let (negative, text) :=
    match text with
    | '-' :: rest => (true, rest)
    | '+' :: rest => (false, rest)
    | text => (false, text)
  let digits := text.takeWhile Char.isDigit
  let rest := text.dropWhile Char.isDigit
  match digits, rest with
  | [], [] => .error ⟨.endInValue, []⟩
  | [], _ :: rest => .error ⟨.invalidNumber, rest⟩
  | _, _ =>
    let value := digits.foldl (fun n c => n * 10 + (c.toNat - '0'.toNat)) 0
    if value > 0x7fffffff then
      if significand != 0 && !negative then .error ⟨.numberOutOfRange, rest⟩
      else .ok (.float, rest)
    else
      float significand (if negative then exponent - value else exponent + value) rest

/-- Reads the exponent of a number, if it has one. -/
def optionalExponent (significand : Nat) (exponent : Int) (text : List Char) :
    Except JsonFault (Number × List Char) :=
  match text with
  | 'e' :: rest | 'E' :: rest => exponentFrom significand exponent rest
  | text => float significand exponent text

/-- Reads the fraction of a number, behind its point. Digits beyond 64 bits
do not matter. -/
def fractionFrom (significand : Nat) (exponent : Int) (text : List Char) :
    Except JsonFault (Number × List Char) :=
  let digits := text.takeWhile Char.isDigit
  let rest := text.dropWhile Char.isDigit
  match digits, rest with
  | [], [] => .error ⟨.endInValue, []⟩
  | [], rest => .error ⟨.invalidNumber, rest⟩
  | _, _ =>
    let (significand, surplus) := appendDigits significand digits
    optionalExponent significand (exponent - (digits.length - surplus : Nat)) rest

/-- Reads what may follow the digits of an integer; `exponent` counts the
digits beyond 64 bits. A negative number is an integer from -2⁶³ to -1. -/
def numberTail (negative : Bool) (significand exponent : Nat) (text : List Char) :
    Except JsonFault (Number × List Char) :=
  match text with
  | '.' :: rest => fractionFrom significand exponent rest
  | 'e' :: rest | 'E' :: rest => exponentFrom significand exponent rest
  | text =>
    if exponent > 0 then float significand exponent text
    else if !negative then .ok (.natural significand, text)
    else if significand = 0 ∨ significand > 0x8000000000000000 then .ok (.float, text)
    else .ok (.negative (-significand), text)

/-- Reads a number, behind its sign. -/
def numberFrom (negative : Bool) (text : List Char) : Except JsonFault (Number × List Char) :=
  match text with
  | [] => .error ⟨.endInValue, []⟩
  | c :: rest =>
    if c = '0' then
      match rest with
      | d :: _ =>
        if d.isDigit then .error ⟨.invalidNumber, rest⟩ else numberTail negative 0 0 rest
      | [] => numberTail negative 0 0 rest
    else if c.isDigit then
      let (significand, surplus) := appendDigits 0 (text.takeWhile Char.isDigit)
      numberTail negative significand surplus (text.dropWhile Char.isDigit)
    else .error ⟨.invalidNumber, rest⟩

/-- Passes over digits, of which there is one at least. -/
def skipDigits (text : List Char) : Except JsonFault (List Char) :=
  match text with
  | [] => .error ⟨.invalidNumber, []⟩
  | c :: rest =>
    if c.isDigit then .ok (rest.dropWhile Char.isDigit) else .error ⟨.invalidNumber, rest⟩

/-- Passes over an exponent, if there is one. -/
def skipExponent (text : List Char) : Except JsonFault (List Char) :=
  match text with
  | 'e' :: rest | 'E' :: rest =>
    match rest with
    | '+' :: rest | '-' :: rest => skipDigits rest
    | rest => skipDigits rest
  | text => .ok text

/-- Passes over a number, behind its sign. -/
def skipNumberFrom (text : List Char) : Except JsonFault (List Char) := do
  let rest ←
    match text with
    | '0' :: d :: rest =>
      if d.isDigit then .error ⟨.invalidNumber, d :: rest⟩ else .ok (d :: rest)
    | text => skipDigits text
  match rest with
  | '.' :: rest => skipExponent (← skipDigits rest)
  | rest => skipExponent rest

end StackVm.Json
