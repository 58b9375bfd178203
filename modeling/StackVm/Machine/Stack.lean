import StackVm.Machine.Trap
import StackVm.Machine.Value

/-!
# Stacks of bounded capacity

A stack holds at most as many items as its capacity. Positions count down
from the top: `peek 0` is the item pushed last. Ranges, which `discard`
removes, count up from the bottom.

Operations are actions on a stack that may trap (`Stack.Action`). One that
traps leaves the stack as it was, `popI32` apart, which pops before it looks
at the type.
-/

namespace StackVm

/-- Items, the first one at the bottom. -/
structure Stack (α : Type) where
  items : Array α
  capacity : Nat
  deriving DecidableEq, Repr

namespace Stack

variable {α : Type}

/-- An action on a stack. -/
abbrev Action (α β : Type) := EStateM Trap (Stack α) β

/-- A stack without items. -/
def empty (capacity : Nat) : Stack α :=
  { items := #[], capacity }

/-- The number of items. -/
def depth (s : Stack α) : Nat :=
  s.items.size

/-- Whether there are no items. -/
def isEmpty (s : Stack α) : Bool :=
  s.items.isEmpty

/-- The place of the item at the top, counted from the bottom. -/
def top? (s : Stack α) : Option Nat :=
  if s.depth = 0 then none else some (s.depth - 1)

/-- The items, the one at the top first. -/
def toListTopFirst (s : Stack α) : List α :=
  s.items.toList.reverse

/-- Puts an item on top. -/
def push (a : α) : Action α Unit := fun s =>
  if s.items.size < s.capacity then .ok () { s with items := s.items.push a }
  else .error (.stackOverflow s.capacity) s

/-- Puts items on top, one after another, up to the first that does not
fit. -/
def pushAll : List α → Action α Unit
  | [] => pure ()
  | a :: rest => do
    push a
    pushAll rest

/-- Takes the item at the top. -/
def pop : Action α α := fun s =>
  match s.items.back? with
  | some a => .ok a { s with items := s.items.pop }
  | none => .error .stackUnderflow s

/-- The item `k` places below the top. -/
def peek (k : Nat) : Action α α := fun s =>
  if h : k < s.items.size then .ok (s.items[s.items.size - 1 - k]) s
  else .error .stackUnderflow s

/-- Replaces the item `k` places below the top. -/
def poke (k : Nat) (a : α) : Action α Unit := fun s =>
  if k < s.items.size then
    .ok () { s with items := s.items.setIfInBounds (s.items.size - 1 - k) a }
  else .error .stackUnderflow s

/-- Removes the items from place `start` up to, not including, place `stop`;
those above move down. -/
def discard (start stop : Nat) : Action α Unit := fun s =>
  if start ≤ stop ∧ stop ≤ s.items.size then
    .ok () { s with items := s.items.extract 0 start ++ s.items.extract stop s.items.size }
  else .error .stackUnderflow s

/-- Takes all items, the one at the top first. -/
def drain : Action α (List α) := fun s =>
  .ok s.toListTopFirst { s with items := #[] }

/-- Takes the item at the top, which has to be an `i32`. -/
def popI32 : Action Value Int32 := do
  let v ← pop
  match v with
  | .i32 n => return n
  | v => throw (.typeMismatch .i32 v.type)

end Stack

end StackVm
