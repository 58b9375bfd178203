/-!
# Pointers and call frames

A pointer says where execution stands: in which function, at which byte of
its body. A call frame says where to go on after a call, and which part of
the data stack belongs to it: its locals end at depth `base`, and its
operands start there.
-/

namespace StackVm

/-- A place in the body of a function. -/
structure Pointer where
  functionIndex : UInt32
  /-- The offset of the next byte of the body. -/
  cursor : Nat
  body : List UInt8
  /-- The bytes from the cursor on, kept at hand. -/
  rest : List UInt8
  rest_eq : rest = body.drop cursor
  deriving DecidableEq, Repr

namespace Pointer

/-- The place at an offset of a body, which may be beyond its end. -/
def place (functionIndex : UInt32) (body : List UInt8) (cursor : Nat) : Pointer :=
  { functionIndex, cursor, body, rest := body.drop cursor, rest_eq := rfl }

/-- The start of a function. -/
def start (functionIndex : UInt32) (body : List UInt8) : Pointer :=
  place functionIndex body 0

/-- Another place in the same body. -/
def seek (p : Pointer) (cursor : Nat) : Pointer :=
  place p.functionIndex p.body cursor

/-- The byte under the cursor. -/
def current? (p : Pointer) : Option UInt8 :=
  p.rest.head?

/-- The pointer, moved by `count` bytes. -/
def advance (p : Pointer) (count : Nat) : Pointer :=
  { p with
    cursor := p.cursor + count
    rest := p.rest.drop count
    rest_eq := by rw [p.rest_eq, List.drop_drop] }

/-- How many bytes stand from the cursor on. -/
def left (p : Pointer) : Nat :=
  p.body.length - p.cursor

theorem length_rest (p : Pointer) : p.rest.length = p.left := by
  rw [p.rest_eq, List.length_drop, left]

theorem cursor_lt_of_current? {p : Pointer} {b : UInt8} (h : p.current? = some b) :
    p.cursor < p.body.length := by
  have hne : p.rest ≠ [] := fun hnil => by simp [current?, hnil] at h
  have := List.length_pos_iff.2 hne
  rw [length_rest, left] at this
  omega

end Pointer

/-- A function call under way. -/
structure CallFrame where
  /-- Where to go on after it, unless the host made the call. -/
  caller : Option Pointer
  /-- The depth of the data stack right above the locals. -/
  base : Nat
  /-- The number of locals, parameters included. -/
  count : Nat
  deriving DecidableEq, Repr

namespace CallFrame

/-- The place of a local on the data stack, counted from the bottom. A frame
that claims more locals than there is room for lacks the first ones. -/
def localSlot? (f : CallFrame) (index : UInt32) : Option Nat :=
  if f.count ≤ index.toNat then none
  else if f.count ≤ f.base + index.toNat then some (f.base + index.toNat - f.count)
  else none

/-- One more than the bytes that the caller has left. -/
def left (f : CallFrame) : Nat :=
  1 + match f.caller with
    | none => 0
    | some p => p.left

/-- The sum of `left` over frames. -/
def leftAll : List CallFrame → Nat
  | [] => 0
  | f :: frames => f.left + leftAll frames

@[simp] theorem leftAll_append_singleton (frames : List CallFrame) (f : CallFrame) :
    leftAll (frames ++ [f]) = leftAll frames + f.left := by
  induction frames with
  | nil => simp [leftAll]
  | cons g frames ih => simp [leftAll, ih, Nat.add_assoc]

end CallFrame

end StackVm
