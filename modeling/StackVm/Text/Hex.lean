/-!
# Hexadecimal text

The lowercase hexadecimal spellings in which offsets, codes and byte strings
are written:

* `Hex.ofNat`: the digits of a number, without leading zeros;
* `Hex.padded`: the same, filled with zeros on the left up to a width;
* `Hex.ofBytes`: a byte string, two digits a byte.
-/

namespace StackVm.Hex

/-- The digits of `n`, most significant first; zero is `0`. -/
def ofNat (n : Nat) : String :=
  String.ofList (Nat.toDigits 16 n)

/-- The digits of `n` behind as many zeros as fill them up to `width`. A
number with more digits than that keeps them all. -/
def padded (width n : Nat) : String :=
  let digits := Nat.toDigits 16 n
  String.ofList (List.replicate (width - digits.length) '0' ++ digits)

/-- The two digits of a byte. -/
def ofByte (b : UInt8) : String :=
  padded 2 b.toNat

/-- The digits of a byte string, in order. -/
def ofBytes (bytes : List UInt8) : String :=
  String.join (bytes.map ofByte)

end StackVm.Hex
