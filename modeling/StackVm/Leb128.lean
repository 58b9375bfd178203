/-!
# LEB128 integers

An integer is written in groups of seven bits, the least significant group
first, one group a byte. The high bit of a byte says that another one
follows; in the signed form bit 6 of the last byte is the sign.

* `Leb128.read`: reads the groups at the front of a byte string into a 32-bit
  word. A number may take any number of bytes: bits beyond the word are lost;
* `Leb128.unsigned`, `Leb128.signed`: the two readings of the word;
* `Leb128.ofNat`, `Leb128.ofInt`: the shortest spellings of a number.
-/

namespace StackVm.Leb128

/-- Whether another byte follows `b`. -/
def continues (b : UInt8) : Bool :=
  b &&& 0x80 != 0

/-- The seven bits that `b` carries. -/
def low (b : UInt8) : UInt32 :=
  (b &&& 0x7f).toUInt32

/-- `bits`, moved up to bit `shift` of a word: from bit 32 on nothing of them
is left. -/
def shifted (bits : UInt32) (shift : Nat) : UInt32 :=
  if shift < 32 then bits <<< UInt32.ofNat shift else 0

/-- The groups of a number, gathered. -/
structure Groups where
  /-- The low 32 bits of the groups. -/
  word : UInt32
  /-- The byte that ends the number. -/
  last : UInt8
  /-- How many bytes the number takes. -/
  size : Nat
  /-- The bytes after the number. -/
  rest : List UInt8
  deriving DecidableEq, Repr

/-- Goes on reading a number of which `size` bytes are gathered in `word`. -/
def readFrom (word : UInt32) (size : Nat) : List UInt8 → Option Groups
  | [] => none
  | b :: rest =>
    let word := word ||| shifted (low b) (7 * size)
    if continues b then readFrom word (size + 1) rest
    else some { word, last := b, size := size + 1, rest }

/-- The number at the front of a byte string, or nothing if the bytes end
inside it. -/
def read (bytes : List UInt8) : Option Groups :=
  readFrom 0 0 bytes

namespace Groups

/-- The number read as unsigned. -/
def unsigned (g : Groups) : UInt32 :=
  g.word

/-- The number read as signed: bits of the word above its groups repeat the
sign. -/
def signed (g : Groups) : Int32 :=
  if 7 * g.size < 32 ∧ g.last &&& 0x40 ≠ 0 then
    (g.word ||| shifted 0xffffffff (7 * g.size)).toInt32
  else g.word.toInt32

end Groups

/-! ## Shortest spellings -/

/-- The shortest unsigned spelling of `n`. -/
def ofNat (n : Nat) : List UInt8 :=
  if n < 128 then [UInt8.ofNat n]
  else UInt8.ofNat (n % 128 + 128) :: ofNat (n / 128)

/-- The shortest signed spelling of `z`: the last group is the first to hold
its sign. -/
def ofInt (z : Int) : List UInt8 :=
  if -64 ≤ z ∧ z < 64 then [UInt8.ofNat (z % 128).toNat]
  else UInt8.ofNat ((z % 128).toNat + 128) :: ofInt (z / 128)
termination_by z.natAbs
decreasing_by omega

/-- The unsigned spelling of a word. -/
def ofUInt32 (v : UInt32) : List UInt8 :=
  ofNat v.toNat

/-- The signed spelling of a word. -/
def ofInt32 (v : Int32) : List UInt8 :=
  ofInt v.toInt

end StackVm.Leb128
