import StackVm.Text.Hex

/-!
# Hexadecimal floating point text

A binary interchange format (`BinaryFormat`) splits a word into a sign, a
biased exponent and a fraction. `BinaryFormat.hexText` writes a word of the
format exactly, with a hexadecimal significand and a decimal exponent of two:

* `0x1.8p+1` is three; the digits after the point are those of the fraction,
  moved to the left edge of a whole digit, without trailing zeros;
* a subnormal number is written with the leading one it does not store, so
  the smallest one of `binary32` is `0x1p-149`;
* `inf` and `nan` are words; a NaN other than the one whose fraction is just
  the quiet bit shows its fraction, as in `nan:0x1`;
* every number with its sign bit set has a `-`, zero and NaN included.
-/

namespace StackVm

/-- The widths of the exponent and fraction fields of a binary interchange
format; the sign takes one more bit, at the top. -/
structure BinaryFormat where
  exponentBits : Nat
  fractionBits : Nat

namespace BinaryFormat

/-- The format of `f32`. -/
def binary32 : BinaryFormat := ⟨8, 23⟩

/-- The format of `f64`. -/
def binary64 : BinaryFormat := ⟨11, 52⟩

/-- Whether the sign bit of `word` is set. -/
def negative (f : BinaryFormat) (word : Nat) : Bool :=
  word.testBit (f.exponentBits + f.fractionBits)

/-- The biased exponent field of `word`. -/
def exponent (f : BinaryFormat) (word : Nat) : Nat :=
  (word >>> f.fractionBits) % (1 <<< f.exponentBits)

/-- The fraction field of `word`. -/
def fraction (f : BinaryFormat) (word : Nat) : Nat :=
  word % (1 <<< f.fractionBits)

/-- The exponent field of infinities and NaNs: all ones. -/
def special (f : BinaryFormat) : Nat :=
  (1 <<< f.exponentBits) - 1

/-- What the exponent field of a normal number exceeds its exponent by. -/
def bias (f : BinaryFormat) : Nat :=
  (1 <<< (f.exponentBits - 1)) - 1

/-- Whether `word` is a NaN. -/
def isNaN (f : BinaryFormat) (word : Nat) : Bool :=
  f.exponent word == f.special && f.fraction word != 0

/-- Whether `word` is a zero of either sign. -/
def isZero (f : BinaryFormat) (word : Nat) : Bool :=
  f.exponent word == 0 && f.fraction word == 0

/-- Equality of the numbers two words stand for: a NaN equals nothing, and
the two zeros are equal. -/
def equal (f : BinaryFormat) (a b : Nat) : Bool :=
  !f.isNaN a && !f.isNaN b && (a == b || f.isZero a && f.isZero b)

/-- The fraction's digits after the point: it is moved to the left edge of a
whole number of digits, and trailing zeros are dropped. -/
def fractionDigits (f : BinaryFormat) (fraction : Nat) : List Char :=
  let digits := (f.fractionBits + 3) / 4
  let aligned := fraction <<< (4 * digits - f.fractionBits)
  let text := Nat.toDigits 16 aligned
  let full := List.replicate (digits - text.length) '0' ++ text
  (full.reverse.dropWhile (· == '0')).reverse

/-- A number `1.fraction × 2 ^ exponent`. -/
def finiteText (f : BinaryFormat) (fraction : Nat) (exponent : Int) : String :=
  let digits := f.fractionDigits fraction
  let point := if digits.isEmpty then "" else "."
  let sign := if exponent < 0 then "-" else "+"
  "0x1" ++ point ++ String.ofList digits ++ "p" ++ sign ++ toString exponent.natAbs

/-- The magnitude of `word`, its sign apart. -/
def magnitudeText (f : BinaryFormat) (word : Nat) : String :=
  let exponent := f.exponent word
  let fraction := f.fraction word
  if exponent = f.special then
    if fraction = 0 then "inf"
    else if fraction = 1 <<< (f.fractionBits - 1) then "nan"
    else "nan:0x" ++ Hex.ofNat fraction
  else if exponent = 0 then
    if fraction = 0 then "0x0p+0"
    else
      -- The leading one of a subnormal stands at bit `top` of its fraction.
      let top := fraction.log2
      let rest := (fraction <<< (f.fractionBits - top)) % (1 <<< f.fractionBits)
      f.finiteText rest ((top : Int) - f.fractionBits + 1 - f.bias)
  else
    f.finiteText fraction ((exponent : Int) - f.bias)

/-- The text of `word`. -/
def hexText (f : BinaryFormat) (word : Nat) : String :=
  (if f.negative word then "-" else "") ++ f.magnitudeText word

end BinaryFormat

end StackVm
