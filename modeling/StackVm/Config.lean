import StackVm.Text.Json.Reader

/-!
# Configurations

What to run and within which bounds. `Config.check` refuses a configuration
that no run could start from, and `Config.ofJson` reads one from JSON: an
object whose members are the fields, in any order, or a list of the fields in
their order. A field that is absent has its default, and a member of another
name is passed over.
-/

namespace StackVm

/-- What to run, and how far. -/
structure Config where
  /-- The name of the export to call. -/
  startFunction : String
  /-- The arguments of the call. -/
  initialValues : List Int32
  /-- How many values the data stack holds. -/
  dataCapacity : Nat
  /-- How many frames the call stack holds. -/
  callCapacity : Nat
  /-- How many instructions are executed at most. -/
  maxInstructions : Option Nat
  deriving DecidableEq, Repr

/-- The two stacks of a thread. -/
inductive StackRole
  | data
  | call
  deriving DecidableEq, Repr

/-- The name of a stack. -/
def StackRole.name : StackRole → String
  | data => "data stack"
  | call => "call stack"

/-- A line and column of a text, where something is wrong with it. -/
structure JsonError where
  complaint : JsonComplaint
  line : Nat
  column : Nat
  deriving DecidableEq, Repr

/-- The wording of a fault in a JSON text. -/
def JsonError.message (e : JsonError) : String :=
  e.complaint.message ++ " at line " ++ toString e.line ++ " column " ++ toString e.column

/-- Why a configuration is of no use. -/
inductive ConfigError
  | emptyStartFunction
  | zeroCapacity (stack : StackRole)
  | tooManyInitialValues (count capacity : Nat)
  | json (error : JsonError)
  /-- Its file cannot be read, in the words of `text`. -/
  | unreadable (text : String)
  deriving DecidableEq, Repr

/-- The wording of each error. -/
def ConfigError.message : ConfigError → String
  | emptyStartFunction => "start function name is empty"
  | zeroCapacity stack => stack.name ++ " capacity must be non-zero"
  | tooManyInitialValues count capacity =>
    toString count ++ " initial values do not fit a data stack of " ++ toString capacity
  | json error => "invalid configuration: " ++ error.message
  | unreadable text => "cannot read configuration: " ++ text

namespace Config

/-- The configuration that calls `startFunction` without arguments, within
the default bounds. -/
def new (startFunction : String) : Config where
  startFunction
  initialValues := []
  dataCapacity := 65536
  callCapacity := 1024
  maxInstructions := none

/-- Succeeds unless the configuration is of no use; of several reasons the
first in this order is given. -/
def check (c : Config) : Except ConfigError Unit :=
  if c.startFunction.isEmpty then .error .emptyStartFunction
  else if c.dataCapacity = 0 then .error (.zeroCapacity .data)
  else if c.callCapacity = 0 then .error (.zeroCapacity .call)
  else if c.initialValues.length > c.dataCapacity then
    .error (.tooManyInitialValues c.initialValues.length c.dataCapacity)
  else .ok ()

/-! ## Fields -/

/-- The fields of a configuration. -/
inductive Field
  | startFunction
  | initialValues
  | dataCapacity
  | callCapacity
  | maxInstructions
  deriving DecidableEq, Repr

/-- The name of a field. -/
def Field.key : Field → String
  | startFunction => "start_function_name"
  | initialValues => "initial_stack_values"
  | dataCapacity => "data_stack_capacity"
  | callCapacity => "call_stack_capacity"
  | maxInstructions => "max_instructions"

/-- The fields in their order. -/
def Field.all : List Field :=
  [startFunction, initialValues, dataCapacity, callCapacity, maxInstructions]

/-- The field of a name. -/
def Field.ofKey? (key : String) : Option Field :=
  all.find? (·.key == key)

open JsonReader Json in
/-- An integer that `convert` accepts. -/
def readInteger {α : Type} (convert : Number → Option α) : JsonReader α := do
  let n ←
    match ← peek with
    | some '-' => do
      eat
      number true
    | some c => if c.isDigit then number false else mismatch
    | none => mismatch
  match n, convert n with
  | _, some a => return a
  | .float, none => fail .invalidType
  | _, none => fail .outOfRange

/-- A natural number of 64 bits. -/
def natural? : Json.Number → Option Nat
  | .natural n => some n
  | _ => none

/-- An integer of 32 bits. -/
def int32? : Json.Number → Option Int32
  | .natural n => if n ≤ 0x7fffffff then some (Int32.ofNat n) else none
  | .negative n => if -0x80000000 ≤ n then some (Int32.ofInt n) else none
  | .float => none

open JsonReader in
/-- A string. -/
def readString : JsonReader String := do
  match ← peek with
  | some '"' => do
    eat
    string
  | _ => mismatch

open JsonReader in
/-- A natural number, or null for nothing. -/
def readOptional : JsonReader (Option Nat) := do
  match ← peek with
  | some 'n' => do
    eat
    literal ['u', 'l', 'l']
    return none
  | _ => return some (← readInteger natural?)

open JsonReader in
/-- The elements of a list of integers, behind those in `done`, which stand
in reverse. Every element takes a character, so as much `fuel` as there are
characters is enough. -/
def readElements : Nat → List Int32 → JsonReader (List Int32)
  | 0, _ => fail .endInList
  | fuel + 1, done => do
    if ← nextElement done.isEmpty then
      readElements fuel ((← readInteger int32?) :: done)
    else
      endList
      return done.reverse

open JsonReader in
/-- A list of integers. -/
def readList : JsonReader (List Int32) := do
  match ← peek with
  | some '[' => do
    eat
    readElements ((← get).length + 1) []
  | _ => mismatch

/-- Reads the value of a field into a configuration. -/
def readField (c : Config) : Field → JsonReader Config
  | .startFunction => return { c with startFunction := ← readString }
  | .initialValues => return { c with initialValues := ← readList }
  | .dataCapacity => return { c with dataCapacity := ← readInteger natural? }
  | .callCapacity => return { c with callCapacity := ← readInteger natural? }
  | .maxInstructions => return { c with maxInstructions := ← readOptional }

/-! ## Objects and lists of fields -/

open JsonReader in
/-- Reads the elements of a list into fields, as long as there are both. -/
def readInOrder (first : Bool) (c : Config) : List Field → JsonReader Config
  | [] => return c
  | f :: fields => do
    if ← nextElement first then
      readInOrder false (← readField c f) fields
    else
      return c

open JsonReader in
/-- Reads the members of an object; `seen` holds the fields already read.
Every member and every value in it takes a character, so as much `fuel` as
there are characters is enough. -/
def readMembers : Nat → Bool → List Field → Config → JsonReader Config
  | 0, _, _, _ => fail .endInObject
  | fuel + 1, first, seen, c => do
    match ← nextKey first with
    | none => return c
    | some key =>
      match Field.ofKey? key with
      | none =>
        colon
        skipValue fuel []
        readMembers fuel false seen c
      | some f =>
        if f ∈ seen then
          fail (.repeatedField key)
        else
          colon
          readMembers fuel false (f :: seen) (← readField c f)

open JsonReader in
/-- Reads a configuration and the end of the text. -/
def read : JsonReader Config := do
  let c ←
    match ← peek with
    | some '[' => do
      eat
      let c ← readInOrder true (new "") Field.all
      endList
      pure c
    | some '\x7b' => do
      eat
      let c ← readMembers ((← get).length + 1) true [] (new "")
      eat
      pure c
    | _ => mismatch
  endOfText
  return c

/-- The place in a text where the characters in `rest` are yet to come. Lines
count from one, and columns count the bytes of a line before the place. -/
def locate (text rest : List Char) : Nat × Nat :=
  let before := text.take (text.length - rest.length)
  let line := (before.reverse.takeWhile (· != '\n')).reverse
  (before.count '\n' + 1, (String.ofList line).utf8ByteSize)

/-- Reads a configuration from JSON. -/
def ofJson (text : String) : Except ConfigError Config :=
  match read text.toList with
  | .ok (c, _) => .ok c
  | .error ⟨complaint, rest⟩ =>
    let (line, column) := locate text.toList rest
    .error (.json { complaint, line, column })

end Config

end StackVm
