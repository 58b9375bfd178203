import StackVm.Text.Hex
import StackVm.Module.Section
import StackVm.Binary.Format

/-!
# Decoding failures

Why a byte string is not a module, and at which offset that was found.
`DecodeError.message` words it, and `DecodeError.rebase` turns an offset in a
part of the input into one in the whole.
-/

namespace StackVm

/-- What is wrong with the first eight bytes of a module. -/
inductive ModuleFault
  | missingMagic
  | badMagic (found : UInt32)
  | missingVersion
  | unsupportedVersion (found : UInt32)
  /-- A fault in words of its own. -/
  | other (text : String)
  deriving DecidableEq, Repr

/-- The wording of each fault. -/
def ModuleFault.message : ModuleFault → String
  | missingMagic => "missing magic number"
  | badMagic found => "bad magic number 0x" ++ Hex.padded 8 found.toNat
  | missingVersion => "missing version"
  | unsupportedVersion found => "unsupported version " ++ toString found.toNat
  | other text => text

/-- What is wrong with the content of a section. -/
inductive SectionFault
  | delimiter (found : UInt8)
  | valueType (found : UInt8)
  | refType (found : UInt8)
  | exportKind (found : UInt8)
  | tooMany (what : Counted) (count : UInt32)
  | memoryCount (count : UInt32)
  | entryTooLong (size : UInt32)
  | tooManyLocals
  /-- A fault in words of its own. -/
  | other (text : String)
  deriving DecidableEq, Repr

/-- The wording of each fault. -/
def SectionFault.message : SectionFault → String
  | delimiter found => "expected 0x60 to lead function type, got 0x" ++ Hex.ofByte found
  | valueType found => "unknown value type 0x" ++ Hex.ofByte found
  | refType found => "unknown reference type 0x" ++ Hex.ofByte found
  | exportKind found => "unknown export kind 0x" ++ Hex.ofByte found
  | tooMany what count =>
    toString count.toNat ++ " " ++ what.noun ++ " exceeds limit of " ++ toString what.limit
  | memoryCount count => toString count.toNat ++ " memories declared, at most one is allowed"
  | entryTooLong size => "function body of " ++ toString size.toNat ++ " bytes exceeds limit"
  | tooManyLocals => "too many locals, limit is " ++ toString Bounds.locals
  | other text => text

/-- Why decoding failed. -/
inductive DecodeError
  | invalidModule (fault : ModuleFault)
  | invalidSection (kind : SectionKind) (offset : Nat) (fault : SectionFault)
  /-- The input ends inside something. -/
  | truncated (offset : Nat)
  /-- A name is not UTF-8; the offset is that of its length. -/
  | invalidName (offset : Nat)
  /-- The source of the bytes failed, in the words of `text`. -/
  | readFailed (offset : Nat) (text : String)
  deriving DecidableEq, Repr

namespace DecodeError

/-- The wording of each failure. -/
def message : DecodeError → String
  | invalidModule fault => "invalid module: " ++ fault.message
  | invalidSection kind offset fault =>
    "invalid " ++ kind.name ++ " section at offset 0x" ++ Hex.ofNat offset ++ ": " ++ fault.message
  | truncated offset => "unexpected end of input at offset 0x" ++ Hex.ofNat offset
  | invalidName offset => "malformed UTF-8 name at offset 0x" ++ Hex.ofNat offset
  | readFailed offset text => "read failed at offset 0x" ++ Hex.ofNat offset ++ ": " ++ text

/-- The failure as seen from a whole in which the part starts at `base`. -/
def rebase (base : Nat) : DecodeError → DecodeError
  | invalidModule fault => .invalidModule fault
  | invalidSection kind offset fault => .invalidSection kind (offset + base) fault
  | truncated offset => .truncated (offset + base)
  | invalidName offset => .invalidName (offset + base)
  | readFailed offset text => .readFailed (offset + base) text

end DecodeError

end StackVm
