import StackVm.Leb128
import StackVm.Text.Utf8
import StackVm.Binary.DecodeError

/-!
# Reading bytes

A `Source` delivers bytes and then ends, cleanly or with a failure that every
further request meets again. A `Reader` counts what it takes from a source,
and a `Read` action takes something and returns it, or fails; either way the
reader it leaves shows what was taken.

* `Read.tryByte`, `Read.byte`, `Read.take`, `Read.toEnd`, `Read.word`: bytes
  and fixed-width words;
* `Read.unsigned`, `Read.signed`: integers in LEB128;
* `Read.name`, `Read.limit`, `Read.delimiter`: what modules are made of.

A single byte and a fixed-width word take a failure of kind `endOfInput` for
the end of the source, and byte strings report it. A word that is cut short
and a byte string that meets a failure consume what there was without
counting it.
-/

namespace StackVm

/-- Whether a failing source claims to have ended. -/
inductive FailureKind
  | endOfInput
  | other
  deriving DecidableEq, Repr

/-- How a source fails. -/
structure Failure where
  kind : FailureKind
  text : String
  deriving DecidableEq, Repr

/-- Where bytes come from. -/
structure Source where
  /-- The bytes still to come. -/
  bytes : List UInt8
  /-- What a request for a byte beyond them meets, if not a clean end. -/
  failure : Option Failure
  deriving DecidableEq, Repr

/-- What may happen to a source on the way. -/
inductive Disturbance
  /-- A request is interrupted once, and made again. -/
  | interruption
  | failure (f : Failure)
  deriving DecidableEq, Repr

namespace Source

/-- The source of just these bytes. -/
def ofBytes (bytes : List UInt8) : Source :=
  { bytes, failure := none }

/-- The source of these bytes, disturbed after the first `count`. The end of
the bytes comes before a disturbance beyond it. -/
def disturbed (bytes : List UInt8) (count : Nat) : Disturbance → Source
  | .interruption => ofBytes bytes
  | .failure f =>
    if count ≤ bytes.length then { bytes := bytes.take count, failure := some f }
    else ofBytes bytes

end Source

/-- A source and the number of bytes counted so far. -/
structure Reader extends Source where
  pos : Nat
  deriving DecidableEq, Repr

namespace Reader

/-- A reader at the start of a source. -/
def ofSource (source : Source) : Reader :=
  { source with pos := 0 }

/-- A reader at the start of a byte string. -/
def ofBytes (bytes : List UInt8) : Reader :=
  ofSource (.ofBytes bytes)

/-- The failure of a request for one byte where there is none. -/
def ending (r : Reader) : DecodeError :=
  match r.failure with
  | some ⟨.other, text⟩ => .readFailed r.pos text
  | _ => .truncated r.pos

/-- The reader after all bytes were taken and counted. -/
def exhausted (r : Reader) : Reader :=
  { r with bytes := [], pos := r.pos + r.bytes.length }

/-- The reader after all bytes were taken and not counted. -/
def drained (r : Reader) : Reader :=
  { r with bytes := [] }

end Reader

/-- An action that reads. -/
abbrev Read := EStateM DecodeError Reader

namespace Read

/-- The number of bytes counted so far. -/
def position : Read Nat := fun r =>
  .ok r.pos r

/-- Fails with a fault in a section of the given kind. -/
def reject {α : Type} (kind : SectionKind) (offset : Nat) (fault : SectionFault) : Read α := fun r =>
  .error (.invalidSection kind offset fault) r

/-- What an option holds, or else what `fallback` comes to. -/
def ofOption {α : Type} (o : Option α) (fallback : Read α) : Read α :=
  match o with
  | some a => pure a
  | none => fallback

/-! ## Bytes and words -/

/-- The next byte, or nothing at the end of the source. -/
def tryByte : Read (Option UInt8) := fun r =>
  match r.bytes with
  | b :: rest => .ok (some b) { r with bytes := rest, pos := r.pos + 1 }
  | [] =>
    match r.failure with
    | some ⟨.other, text⟩ => .error (.readFailed r.pos text) r
    | _ => .ok none r

/-- The next byte. -/
def byte : Read UInt8 := fun r =>
  match r.bytes with
  | b :: rest => .ok b { r with bytes := rest, pos := r.pos + 1 }
  | [] => .error r.ending r

/-- The next `count` bytes. Taking none asks the source for nothing. -/
def take (count : Nat) : Read (List UInt8) := fun r =>
  let taken := r.bytes.take count
  if taken.length = count then
    .ok taken { r with bytes := r.bytes.drop count, pos := r.pos + count }
  else
    match r.failure with
    | some f => .error (.readFailed r.pos f.text) r.drained
    | none => .error (.truncated (r.pos + taken.length)) r.exhausted

/-- All bytes that are left. -/
def toEnd : Read (List UInt8) := fun r =>
  match r.failure with
  | some f => .error (.readFailed r.pos f.text) r.drained
  | none => .ok r.bytes r.exhausted

/-- The word of four bytes, the least significant one first. -/
def littleEndian (b₀ b₁ b₂ b₃ : UInt8) : UInt32 :=
  b₀.toUInt32 ||| b₁.toUInt32 <<< 8 ||| b₂.toUInt32 <<< 16 ||| b₃.toUInt32 <<< 24

/-- A word of four bytes. -/
def word : Read UInt32 := fun r =>
  match r.bytes with
  | b₀ :: b₁ :: b₂ :: b₃ :: rest =>
    .ok (littleEndian b₀ b₁ b₂ b₃) { r with bytes := rest, pos := r.pos + 4 }
  | _ => .error r.ending r.drained

/-! ## Integers, names and limits -/

/-- The groups of a LEB128 integer. -/
def groups : Read Leb128.Groups := fun r =>
  match Leb128.read r.bytes with
  | some g => .ok g { r with bytes := g.rest, pos := r.pos + g.size }
  | none => .error r.exhausted.ending r.exhausted

/-- An unsigned LEB128 integer. -/
def unsigned : Read UInt32 :=
  return (← groups).unsigned

/-- A signed LEB128 integer. -/
def signed : Read Int32 :=
  return (← groups).signed

/-- A name: the length of its UTF-8 form, then that form. -/
def name : Read String := do
  let start ← position
  let length ← unsigned
  let bytes ← take length.toNat
  ofOption (Utf8.decode? bytes) (throw (.invalidName start))

/-- A limit: a flag, the minimum, and the maximum if the flag is not zero. -/
def limit : Read Limit := do
  let flag ← byte
  let min ← unsigned
  if flag = 0 then
    return { min, max := none }
  else
    return { min, max := some (← unsigned) }

/-- The byte that leads a function type. -/
def delimiter : Read Unit := do
  let offset ← position
  let found ← byte
  if found ≠ 0x60 then
    reject .types offset (.delimiter found)

/-! ## Parts within a whole -/

/-- What an action reads from a byte string of its own. -/
def onBytes {α : Type} (action : Read α) (bytes : List UInt8) : Except DecodeError α :=
  match action (.ofBytes bytes) with
  | .ok a _ => .ok a
  | .error e _ => .error e

/-- The outcome of reading a part that starts at `base`: offsets in its
failures become offsets in the whole. -/
def ofPart {α : Type} (base : Nat) : Except DecodeError α → Read α
  | .ok a => pure a
  | .error e => throw (e.rebase base)

/-- The number of bytes behind the reader, from its start to its end. -/
def size : Read Nat := fun r =>
  .ok (r.pos + r.bytes.length) r

/-- How many of `size` bytes remain. -/
def remaining (size : Nat) : Read Nat := fun r =>
  .ok (size - r.pos) r

/-- `count` values that `element` reads one after another, behind those in
`done`. -/
def repeated {α : Type} (element : Read α) : Nat → Array α → Read (Array α)
  | 0, done => pure done
  | count + 1, done => do
    let a ← element
    repeated element count (done.push a)

end Read

end StackVm
