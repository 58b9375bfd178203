import StackVm.Text.Utf8
import StackVm.Binary.Reader

/-!
# Files

What a program finds at a path: bytes, or a reason why there are none
(`FileFault`). A file that does not open is told from one that opens and then
cannot be read. `File.source` reads a file byte by byte, and `File.text` all
of it at once.
-/

namespace StackVm

/-- Why a file cannot be opened or read. -/
inductive FileFault
  | missing
  | permissionDenied
  /-- A name on the way stands for a file. -/
  | notDirectory
  | isDirectory
  | nameTooLong
  /-- Its bytes are no text. -/
  | notUtf8
  /-- A fault in words of its own. -/
  | other (text : String)
  deriving DecidableEq, Repr

namespace FileFault

/-- The wording of each fault. -/
def message : FileFault → String
  | missing => "No such file or directory (os error 2)"
  | permissionDenied => "Permission denied (os error 13)"
  | notDirectory => "Not a directory (os error 20)"
  | isDirectory => "Is a directory (os error 21)"
  | nameTooLong => "File name too long (os error 36)"
  | notUtf8 => "stream did not contain valid UTF-8"
  | other text => text

/-- The fault with a number and a text of the system's. -/
def ofNumber (number : Nat) (text : String) : FileFault :=
  match number with
  | 2 => missing
  | 13 => permissionDenied
  | 20 => notDirectory
  | 21 => isDirectory
  | 36 => nameTooLong
  | number => other (text ++ " (os error " ++ toString number ++ ")")

end FileFault

/-- What stands at a path, as far as it can be read. -/
inductive File
  /-- It cannot be opened. -/
  | closed (fault : FileFault)
  /-- It can be opened, and the first request for a byte fails. -/
  | unreadable (fault : FileFault)
  | regular (bytes : List UInt8)
  deriving DecidableEq, Repr

namespace File

/-- The file with a fault. Only a directory opens in spite of it. -/
def ofFault (fault : FileFault) : File :=
  if fault = .isDirectory then unreadable fault else closed fault

/-- The bytes of a file, if it opens. -/
def source : File → Except FileFault Source
  | closed fault => .error fault
  | unreadable fault => .ok { bytes := [], failure := some ⟨.other, fault.message⟩ }
  | regular bytes => .ok (.ofBytes bytes)

/-- The text of a file. -/
def text : File → Except FileFault String
  | closed fault => .error fault
  | unreadable fault => .error fault
  | regular bytes =>
    match Utf8.decode? bytes with
    | some text => .ok text
    | none => .error .notUtf8

end File

end StackVm
