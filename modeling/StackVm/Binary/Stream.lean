import StackVm.Event
import StackVm.Module.Basic
import StackVm.Binary.Content

/-!
# Modules as byte streams

A module is written as eight bytes that name the format and its version, then
one frame per section: the section's number, the size of its content, and the
content. `scan` reads the frames of a source one after another until it ends;
`decode` makes a module of them, and `Scan.events` tells what was met.

* `Read.frame?_shortens`: reading a frame uses up bytes of the source, which
  is why a scan ends.
-/

namespace StackVm

/-- A section as it was read from a frame. -/
structure Framed where
  id : UInt8
  /-- The size of the content, as the frame states it. -/
  size : UInt32
  /-- The bytes of the frame. -/
  span : Span
  /-- The section the content holds. -/
  content : Section
  /-- The number of bytes of the content that the section leaves unread. -/
  trailing : Nat
  deriving DecidableEq, Repr

namespace Read

/-- An action whose failures, whatever they are, mean `fault`. -/
def orFault {α : Type} (action : Read α) (fault : ModuleFault) : Read α := fun r =>
  match action r with
  | .ok a r => .ok a r
  | .error _ r => .error (.invalidModule fault) r

/-- The eight bytes that open a module. -/
def preamble : Read Unit := do
  let found ← word.orFault .missingMagic
  if found ≠ magic then
    throw (.invalidModule (.badMagic found))
  let found ← word.orFault .missingVersion
  if found ≠ version then
    throw (.invalidModule (.unsupportedVersion found))

/-- A frame of which the number `id` is read already; it started at
`start`. -/
def frameOf (start : Nat) (id : UInt8) : Read Framed := do
  let size ← unsigned
  let base ← position
  let bytes ← take size.toNat
  let (content, trailing) ← ofPart base (Section.read id bytes)
  let stop ← position
  return { id, size, span := ⟨start, stop⟩, content, trailing }

/-- The next frame, or nothing at the end of the source. -/
def frame? : Read (Option Framed) := do
  let start ← position
  match ← tryByte with
  | none => return none
  | some id => return some (← frameOf start id)

/-! ## Reading uses up bytes -/

/-- An action that leaves no more bytes than it finds. -/
def Consumes {α : Type} (action : Read α) : Prop :=
  ∀ r a r', action r = .ok a r' → r'.bytes.length ≤ r.bytes.length

theorem consumes_pure {α : Type} (a : α) : Consumes (pure a) := by
  intro r b r' h
  cases h
  exact Nat.le_refl _

theorem consumes_bind {α β : Type} {action : Read α} {next : α → Read β}
    (h₁ : Consumes action) (h₂ : ∀ a, Consumes (next a)) : Consumes (action >>= next) := by
  intro r b r' h
  simp only [bind, EStateM.bind] at h
  split at h
  · next a r₁ h' => exact Nat.le_trans (h₂ a r₁ b r' h) (h₁ r a r₁ h')
  · cases h

theorem consumes_position : Consumes position := by
  intro r a r' h
  cases h
  exact Nat.le_refl _

theorem consumes_ofPart {α : Type} (base : Nat) (outcome : Except DecodeError α) :
    Consumes (ofPart base outcome) := by
  cases outcome with
  | ok a => exact consumes_pure a
  | error e => intro r a r' h; cases h

theorem consumes_take (count : Nat) : Consumes (take count) := by
  intro r a r' h
  simp only [take] at h
  split at h
  · cases h
    simp
  · split at h <;> cases h

theorem length_rest_le_of_readFrom {bytes : List UInt8} {word : UInt32} {size : Nat}
    {g : Leb128.Groups} (h : Leb128.readFrom word size bytes = some g) :
    g.rest.length ≤ bytes.length := by
  induction bytes generalizing word size with
  | nil => cases h
  | cons b rest ih =>
    simp only [Leb128.readFrom] at h
    split at h
    · exact Nat.le_succ_of_le (ih h)
    · cases h
      simp

theorem consumes_unsigned : Consumes unsigned := by
  refine consumes_bind ?_ fun g => consumes_pure _
  intro r g r' h
  simp only [groups] at h
  split at h
  · next hg =>
    cases h
    exact length_rest_le_of_readFrom hg
  · cases h

theorem consumes_frameOf (start : Nat) (id : UInt8) : Consumes (frameOf start id) :=
  consumes_bind consumes_unsigned fun _ =>
    consumes_bind consumes_position fun _ =>
      consumes_bind (consumes_take _) fun _ =>
        consumes_bind (consumes_ofPart _ _) fun _ =>
          consumes_bind consumes_position fun _ => consumes_pure _

/-- A frame takes a byte at least. -/
theorem frame?_shortens {r r' : Reader} {f : Framed} (h : frame? r = .ok (some f) r') :
    r'.bytes.length < r.bytes.length := by
  match hb : r.bytes with
  | [] =>
    simp only [frame?, position, tryByte, bind, EStateM.bind, hb] at h
    match hf : r.failure with
    | none => simp only [hf] at h; cases h
    | some ⟨.endOfInput, _⟩ => simp only [hf] at h; cases h
    | some ⟨.other, _⟩ => simp only [hf] at h; cases h
  | id :: rest =>
    simp only [frame?, position, tryByte, bind, EStateM.bind, hb] at h
    split at h
    · next f' r₁ h₁ =>
      cases h
      exact Nat.lt_succ_of_le (consumes_frameOf _ _ _ _ _ h₁)
    · cases h

end Read

/-! ## Scanning a source -/

/-- What reading a source came to. -/
structure Scan where
  /-- The frames that were read, in order. -/
  frames : Array Framed
  /-- The length of the source, or why reading stopped before its end. -/
  outcome : Except DecodeError Nat

/-- Reads frames up to the end of the source, behind those already `done`. -/
def scanFrames (r : Reader) (done : Array Framed) : Scan :=
  match _h : Read.frame? r with
  | .ok (some f) r' => scanFrames r' (done.push f)
  | .ok none r' => { frames := done, outcome := .ok r'.pos }
  | .error e _ => { frames := done, outcome := .error e }
termination_by r.bytes.length
decreasing_by exact Read.frame?_shortens _h

/-- Reads a source from its start. -/
def scan (source : Source) : Scan :=
  match Read.preamble (.ofSource source) with
  | .ok () r => scanFrames r #[]
  | .error e _ => { frames := #[], outcome := .error e }

namespace Scan

/-- The module of the frames that were read. -/
def toModule (s : Scan) (name : String) : Module :=
  s.frames.foldl (fun m f => m.push f.content f.span) (.empty name)

/-- The module, if reading reached the end of the source. -/
def module? (s : Scan) (name : String) : Except DecodeError Module :=
  s.outcome.map fun _ => s.toModule name

end Scan

/-- The events of reading one frame. -/
def Framed.events (f : Framed) : List Event :=
  let kind := f.content.kind
  let trailing := if f.trailing = 0 then [] else [.trailingBytes f.id kind f.trailing]
  trailing ++ [.decodedSection f.id kind f.span.start f.size]

/-- The events of reading a source as a module of the given name. -/
def Scan.events (s : Scan) (name : String) : List Event :=
  let closing :=
    match s.outcome with
    | .ok length => [.decodedModule name s.frames.size length]
    | .error _ => []
  s.frames.toList.flatMap Framed.events ++ closing

/-- Decodes a module, under a name for diagnostics. -/
def decodeNamed (name : String) (source : Source) : Except DecodeError Module :=
  (scan source).module? name

/-- Decodes a module from a byte string. -/
def decode (bytes : List UInt8) : Except DecodeError Module :=
  decodeNamed "module" (.ofBytes bytes)

end StackVm
