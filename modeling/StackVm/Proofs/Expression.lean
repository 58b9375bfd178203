import StackVm.Proofs.Binary.RoundTrip
import StackVm.Proofs.Leb128.Signed
import StackVm.Proofs.Machine.Turns
import StackVm.Proofs.Module.Lookup

/-!
# Expressions as functions

Expressions over `i32` constants and parameters (`Expr`), the code of a
function that computes one (`Expr.body`), and what becomes of it on the way
through a module: encoded, decoded and executed, it returns the value of the
expression, taken over the integers and cut to a word, or overflows the data
stack, according to how much room the expression needs
(`Interpreter.execute_expr`).

* `Expr.run_code`: the code of an expression, wherever it stands, puts its
  value on the operands, or finds no room for one that it needs on the way;
* `Expr.call_body`: so the function returns that value, or faults.
-/

namespace StackVm

/-! ## Expressions -/

/-- The operators of expressions. -/
inductive Operator
  | add
  | sub
  | mul

/-- What an operator stands for, over the integers. -/
def Operator.apply : Operator → Int → Int → Int
  | add => (· + ·)
  | sub => (· - ·)
  | mul => (· * ·)

/-- The code of an operator, whose arguments are operands. -/
def Operator.byte : Operator → UInt8
  | add => 0x6a
  | sub => 0x6b
  | mul => 0x6c

/-- Expressions over constants and `n` parameters. -/
inductive Expr (n : Nat)
  | const (c : Int32)
  | param (x : UInt32) (h : x.toNat < n)
  | binary (op : Operator) (left right : Expr n)

namespace Expr

variable {n : Nat}

/-- The value over the integers, for the given arguments. -/
def eval (arguments : List Int32) : Expr arguments.length → Int
  | const c => c.toInt
  | param x h => (arguments.get ⟨x.toNat, h⟩).toInt
  | binary op left right => op.apply (left.eval arguments) (right.eval arguments)

/-- The instructions that leave the value as an operand: those of the
arguments, then the operator. -/
def code : Expr n → List UInt8
  | const c => 0x41 :: Leb128.ofInt32 c
  | param x _ => 0x20 :: Leb128.ofUInt32 x
  | binary op left right => left.code ++ right.code ++ [op.byte]

/-- The body of a function that returns the value. -/
def body (e : Expr n) : List UInt8 :=
  e.code ++ [0x0b]

/-- The number of constants, parameters and operators. -/
def nodes : Expr n → Nat
  | const _ => 1
  | param .. => 1
  | binary _ left right => left.nodes + right.nodes + 1

/-- How many operands are there at once on the way to the value: the right
argument finds that of the left one. -/
def need : Expr n → Nat
  | const _ => 1
  | param .. => 1
  | binary _ left right => max left.need (1 + right.need)

theorem need_pos (e : Expr n) : 1 ≤ e.need := by
  induction e with
  | const | param => exact Nat.le_refl 1
  | binary op left right ihleft =>
    rw [need]
    omega

end Expr

/-! ## Instructions -/

theorem Pointer.rest_advance {p : Pointer} {front rest : List UInt8} (h : p.rest = front ++ rest) :
    (p.advance front.length).rest = rest := by
  show p.rest.drop front.length = rest
  rw [h, List.drop_left]

namespace Activation

/-- The activation `count` bytes further on, with one more operand. -/
def pushed (a : Activation) (count : Nat) (v : Value) : Activation :=
  { a.skip count with operands := v :: a.operands }

/-- One operand in the place of two that were pushed. -/
theorem skip_pushed_pushed (a : Activation) (first second : Nat) (v₁ v₂ v : Value) :
    { ((a.pushed first v₁).pushed second v₂).skip 1 with operands := v :: a.operands } =
      a.pushed (first + second + 1) v := by
  simp only [pushed, skip, Pointer.advance_advance]

variable {a : Activation} {room : Except Trap Unit} {rest : List UInt8}

theorem immediate_of_read {b : UInt8} {num : List UInt8} {g : Leb128.Groups}
    (h : a.pointer.rest = b :: num ++ rest) (hread : Leb128.read (num ++ rest) = some g)
    (hsize : g.size = num.length) : a.immediate = .ok (g, a.skip (b :: num).length) := by
  have hrest : (a.skip 1).pointer.rest = num ++ rest := by
    show a.pointer.rest.drop 1 = _
    rw [h]
    rfl
  have hskip : (a.skip 1).skip num.length = a.skip (b :: num).length := by
    rw [skip, skip, skip, Pointer.advance_advance, Nat.add_comm]
    rfl
  rw [immediate, hrest, hread]
  simp only [hsize, hskip]

/-- A constant is pushed. -/
theorem next_const {c : Int32} (h : a.pointer.rest = 0x41 :: Leb128.ofInt32 c ++ rest) :
    a.next room = do
      room
      return some (a.pushed (0x41 :: Leb128.ofInt32 c).length (.i32 c)) := by
  obtain ⟨g, hread, hsigned, hsize, -⟩ := Leb128.read_ofInt32 c rest
  rw [@next_of_rest a .i32Const _ h room, exec, immediate_of_read h hread hsize]
  show (do room; return some _) = _
  rw [hsigned]
  rfl

/-- A parameter is pushed. -/
theorem next_param {x : UInt32} {v : Value} (h : a.pointer.rest = 0x20 :: Leb128.ofUInt32 x ++ rest)
    (hx : a.locals[x.toNat]? = some v) :
    a.next room = do
      room
      return some (a.pushed (0x20 :: Leb128.ofUInt32 x).length v) := by
  have hspells := Leb128.spells_ofUInt32 x
  have hread := Leb128.read_append hspells.1 rest
  have hlocal : (a.skip (0x20 :: Leb128.ofUInt32 x).length).locals[x.toNat]? = some v := hx
  rw [@next_of_rest a .localGet _ h room, exec, immediate_of_read h hread rfl]
  simp only [Bind.bind, Except.bind, hspells.unsigned_eq, hlocal]
  rfl

/-- An operator takes two operands and leaves one. -/
theorem next_operator {op : Operator} {z₁ z₂ : Int} {operands : List Value}
    (h : a.pointer.rest = op.byte :: rest)
    (hoperands : a.operands = .i32 (.ofInt z₂) :: .i32 (.ofInt z₁) :: operands) :
    a.next room = .ok (some { a.skip 1 with operands := .i32 (.ofInt (op.apply z₁ z₂)) :: operands }) := by
  have hbinary : ∀ f : Int32 → Int32 → Int32, some <$> a.binary f =
      .ok (some { a.skip 1 with operands := .i32 (f (.ofInt z₁) (.ofInt z₂)) :: operands }) := by
    intro f
    rw [binary, hoperands]
    rfl
  cases op with
  | add =>
    rw [Operator.apply, Int32.ofInt_add, @next_of_rest a .i32Add _ h room]
    exact hbinary _
  | sub =>
    rw [Operator.apply, Int32.ofInt_sub, @next_of_rest a .i32Sub _ h room]
    exact hbinary _
  | mul =>
    rw [Operator.apply, Int32.ofInt_mul, @next_of_rest a .i32Mul _ h room]
    exact hbinary _

theorem next_end (h : a.pointer.rest = 0x0b :: rest) : a.next room = .ok none :=
  @next_of_rest a .endBody _ h room

end Activation

/-! ## Runs -/

namespace SplitThread

variable {m : SplitThread} {acts : List Activation} {a a' : Activation}

/-- What a run comes to on whose way to `a'` there are `count` instructions,
and `need` operands at most. -/
structure Evaluates (m : SplitThread) (acts : List Activation) (a : Activation) (need count : Nat)
    (a' : Activation) : Prop where
  run_eq : (a.values ++ m.below acts).length + need ≤ m.dataCapacity →
    (m.within acts a).run none = ((m.after count).within acts a').run none
  overflow : m.dataCapacity < (a.values ++ m.below acts).length + need →
    ∃ cursor t, (m.within acts a).run none =
      (.error ⟨a.pointer.functionIndex, cursor, .stackOverflow m.dataCapacity⟩, t)

/-- An instruction that pushes a value. -/
theorem evaluates_of_push (hcap : (a.values ++ m.below acts).length ≤ m.dataCapacity)
    (hnext : ∀ room, a.next room = do room; return some a') : m.Evaluates acts a 1 1 a' := by
  constructor
  · intro hroom
    refine run_within_of_next hcap ?_
    rw [hnext, roomFor_of_lt hroom]
    rfl
  · intro hfull
    have htrap : a.next (m.roomFor acts a) = .error (.stackOverflow m.dataCapacity) := by
      rw [hnext, roomFor_of_le (Nat.le_of_lt_succ hfull)]
      rfl
    obtain ⟨t, ht⟩ := run_within_of_trap hcap htrap
    exact ⟨a.pointer.cursor, t, ht⟩

end SplitThread

namespace Expr

variable {arguments : List Int32}

/-- The code of an expression, in front of any other code and on any operands,
leaves its value as an operand. -/
theorem run_code (e : Expr arguments.length) {m : SplitThread} {acts : List Activation} {a : Activation}
    {rest : List UInt8} (hrest : a.pointer.rest = e.code ++ rest) (hlocals : a.locals = arguments.map .i32)
    (hcap : (a.values ++ m.below acts).length ≤ m.dataCapacity) :
    m.Evaluates acts a e.need e.nodes (a.pushed e.code.length (.i32 (.ofInt (e.eval arguments)))) := by
  induction e generalizing m a rest with
  | const c =>
    rw [eval, Int32.ofInt_toInt]
    exact SplitThread.evaluates_of_push hcap fun room => Activation.next_const hrest
  | param x h =>
    rw [eval, Int32.ofInt_toInt]
    refine SplitThread.evaluates_of_push hcap fun room => Activation.next_param hrest ?_
    rw [hlocals, List.getElem?_map, List.getElem?_eq_getElem h]
    rfl
  | binary op left right ihleft ihright =>
    have hneed : (binary op left right).need = max left.need (1 + right.need) := rfl
    have hleftPos := left.need_pos
    have hrightPos := right.need_pos
    have hrest₀ : a.pointer.rest = left.code ++ (right.code ++ (op.byte :: rest)) := by
      rw [hrest, code, List.append_assoc, List.append_assoc]
      rfl
    let a₁ := a.pushed left.code.length (.i32 (.ofInt (left.eval arguments)))
    let a₂ := a₁.pushed right.code.length (.i32 (.ofInt (right.eval arguments)))
    have hrest₁ : a₁.pointer.rest = right.code ++ (op.byte :: rest) := Pointer.rest_advance hrest₀
    have hrest₂ : a₂.pointer.rest = op.byte :: rest := Pointer.rest_advance hrest₁
    have hleft := ihleft hrest₀ hlocals hcap
    -- the right argument is evaluated above the value of the left one
    have hright : (a.values ++ m.below acts).length + 1 ≤ m.dataCapacity →
        (m.after left.nodes).Evaluates acts a₁ right.need right.nodes a₂ :=
      fun hcap₁ => ihright hrest₁ hlocals hcap₁
    have hlast : { a₂.skip 1 with
        operands := .i32 (.ofInt (op.apply (left.eval arguments) (right.eval arguments))) :: a.operands } =
        a.pushed (binary op left right).code.length (.i32 (.ofInt ((binary op left right).eval arguments))) := by
      rw [code, List.length_append, List.length_append]
      exact Activation.skip_pushed_pushed a _ _ _ _ _
    constructor
    · intro hroom
      have hroom₁ : (a.values ++ m.below acts).length + 1 + right.need ≤ m.dataCapacity := by omega
      have hcap₂ : (a₂.values ++ ((m.after left.nodes).after right.nodes).below acts).length ≤
          m.dataCapacity := by
        show (a.values ++ m.below acts).length + 2 ≤ m.dataCapacity
        omega
      rw [hleft.run_eq (by omega), (hright (by omega)).run_eq hroom₁,
        SplitThread.run_within_of_next hcap₂ (Activation.next_operator hrest₂ rfl), hlast,
        SplitThread.after_after, SplitThread.after_after]
      rfl
    · intro hfull
      by_cases hroom : (a.values ++ m.below acts).length + left.need ≤ m.dataCapacity
      · have hfull₁ : m.dataCapacity < (a.values ++ m.below acts).length + 1 + right.need := by omega
        rw [hleft.run_eq hroom]
        exact (hright (by omega)).overflow hfull₁
      · exact hleft.overflow (Nat.lt_of_not_le hroom)

/-- A function that computes an expression returns its value, if there is room
for it. -/
theorem call_body (e : Expr arguments.length) {vm : Interpreter} (hbudget : vm.maxInstructions = none)
    (hdata : arguments.length ≤ vm.dataCapacity) (hcall : 1 ≤ vm.callCapacity) (index : UInt32) :
    (arguments.length + e.need ≤ vm.dataCapacity → vm.call index ⟨[], e.body⟩ arguments =
      .ok ⟨[.i32 (.ofInt (e.eval arguments))], e.nodes + 1⟩) ∧
    (vm.dataCapacity < arguments.length + e.need → ∃ cursor, vm.call index ⟨[], e.body⟩ arguments =
      .error ⟨index, cursor, .stackOverflow vm.dataCapacity⟩) := by
  let m := SplitThread.new vm.dataCapacity vm.callCapacity
  let a : Activation := ⟨.start index e.body, arguments.map .i32, []⟩
  have hlocals : Exec.localsOf ⟨[], e.body⟩ (arguments.map .i32) = arguments.map .i32 := List.append_nil _
  have hdepth : (a.values ++ m.below []).length = arguments.length := by
    simp [a, m, Activation.values, SplitThread.below, SplitThread.new]
  have henter : vm.enter index ⟨[], e.body⟩ arguments = .ok (m.within [] a) := by
    have hentered : Exec.enter index ⟨[], e.body⟩ (arguments.map .i32)
        (.new vm.dataCapacity vm.callCapacity) = .ok () (m.within [] a) := by
      refine (@SplitThread.enter_flatten_eq_ok_iff m hcall index ⟨[], e.body⟩ (arguments.map .i32) _).2
        ⟨?_, ?_⟩
      · rw [hlocals, List.length_map]
        exact hdata
      · rw [hlocals]
        rfl
    rw [Interpreter.enter, hentered]
  have hrun := @run_code arguments e m [] a [0x0b] rfl rfl (by rw [hdepth]; exact hdata)
  constructor
  · intro hroom
    have hpos := e.need_pos
    have hend := @SplitThread.run_within_of_end (m.after e.nodes)
      (a.pushed e.code.length (.i32 (.ofInt (e.eval arguments))))
      (show (a.values ++ m.below []).length + 1 ≤ vm.dataCapacity by omega)
      (Activation.next_end (Pointer.rest_advance rfl))
    rw [Interpreter.call, henter]
    simp only [hbudget]
    rw [hrun.run_eq (by rw [hdepth]; exact hroom), hend]
    refine congrArg Except.ok (congrArg₂ ExecutionResult.mk ?_ ?_)
    · exact Stack.toListTopFirst_ofTopFirst _ _
    · show 0 + e.nodes + 1 = e.nodes + 1
      rw [Nat.zero_add]
  · intro hfull
    obtain ⟨cursor, t, ht⟩ := hrun.overflow (by rw [hdepth]; exact hfull)
    refine ⟨cursor, ?_⟩
    rw [Interpreter.call, henter]
    simp only [hbudget, ht]
    rfl

end Expr

/-! ## Modules -/

theorem length_ofLength_le_five (k : Nat) : (Bytes.ofLength k).length ≤ 5 :=
  Leb128.length_ofUInt32_le _

/-- A module that exports one function can be decoded again. -/
theorem wellFormed_of_export {name : String} {f : Function} (hname : (Utf8.encode name).length < 2 ^ 31)
    (hlocals : f.locals = []) (hsize : (Bytes.ofFunction f).length ≤ Bounds.entrySize) :
    ∀ s ∈ [Section.exports [⟨name, .func, 0⟩], .code [f]], s.WellFormed ∧ s.content.length < 2 ^ 32 := by
  have hone := length_ofLength_le_five (0 + 1)
  have hexports : (Section.exports [⟨name, .func, 0⟩]).content.length < 2 ^ 32 := by
    have hname' := length_ofLength_le_five (Utf8.encode name).length
    have hindex : (Leb128.ofUInt32 0).length = 1 := by decide +kernel
    simp only [Section.content, Bytes.ofVector, Bytes.ofExport, Bytes.ofName, Bytes.sized, List.length_append,
      List.length_cons, List.length_nil, List.flatMap_cons, List.flatMap_nil, hindex]
    omega
  have hcode : (Section.code [f]).content.length < 2 ^ 32 := by
    have hentry := length_ofLength_le_five (Bytes.ofFunction f).length
    rw [Bounds.entrySize] at hsize
    simp only [Section.content, Bytes.ofVector, Bytes.ofCodeEntry, Bytes.sized, List.length_append,
      List.length_cons, List.length_nil, List.flatMap_cons, List.flatMap_nil]
    omega
  have hfunction : ∀ g ∈ [f], g.locals.length ≤ 50000 ∧ (Bytes.ofFunction g).length ≤ Bounds.entrySize := by
    intro g hg
    rw [List.mem_singleton.1 hg, hlocals]
    exact ⟨by decide, hsize⟩
  intro s hs
  rcases List.mem_pair.1 hs with rfl | rfl
  · exact ⟨show 1 ≤ 1000000 by decide, hexports⟩
  · exact ⟨⟨show 1 ≤ 1000000 by decide, hfunction⟩, hcode⟩

/-- An expression, as a function of a module that is encoded, decoded and
executed, comes to its value over the integers, cut to a word. Where the data
stack is too small for the arguments and what the expression needs on top of
them, it overflows. -/
theorem Interpreter.execute_expr {arguments : List Int32} (e : Expr arguments.length) {others : List Section}
    {name moduleName : String} {dataCapacity callCapacity : Nat}
    (hothers : ∀ s ∈ others, s.WellFormed ∧ s.content.length < 2 ^ 32)
    (hsize : (Bytes.ofFunction ⟨[], e.body⟩).length ≤ Bounds.entrySize)
    (hname : name ≠ "") (hlength : (Utf8.encode name).length < 2 ^ 31)
    (hdata : 1 ≤ dataCapacity) (hfit : arguments.length ≤ dataCapacity) (hcall : 1 ≤ callCapacity) :
    let sections := others ++ [.exports [⟨name, .func, 0⟩], .code [⟨[], e.body⟩]]
    let c : Config := ⟨name, arguments, dataCapacity, callCapacity, none⟩
    ∃ m vm, decode (Module.ofSections moduleName sections).encode = .ok m ∧ Interpreter.ofConfig c = .ok vm ∧
      (arguments.length + e.need ≤ dataCapacity →
        vm.execute m c = .ok ⟨[.i32 (.ofInt (e.eval arguments))], e.nodes + 1⟩) ∧
      (dataCapacity < arguments.length + e.need → ∃ cursor,
        vm.execute m c = .error (.fault ⟨0, cursor, .stackOverflow dataCapacity⟩)) := by
  intro sections c
  have hwell : ∀ s ∈ sections, s.WellFormed ∧ s.content.length < 2 ^ 32 := by
    intro s hs
    rcases List.mem_append.1 hs with hs | hs
    · exact hothers s hs
    · exact wellFormed_of_export hlength rfl hsize s hs
  have hof := toList_sections_ofSections moduleName sections
  obtain ⟨m, hm, hsections⟩ := exists_decode_of_moduleForm
    (moduleForm_encode (m := .ofSections moduleName sections) (by rw [hof]; exact hwell))
  rw [hof] at hsections
  have hstart : m.startFunction name = .ok (0, ⟨[], e.body⟩) := by
    have hexports : (m.sections.toList.filter (·.kind = .exports)).getLast? =
        some (.exports [⟨name, .func, 0⟩]) := by
      rw [hsections]
      simp [sections, Section.kind]
    have hcode : (m.sections.toList.filter (·.kind = .code)).getLast? = some (.code [⟨[], e.body⟩]) := by
      rw [hsections]
      simp [sections, Section.kind]
    exact (indexed_of_decode hm).startFunction_eq hexports hcode (by simp) rfl
  obtain ⟨hvalue, hoverflow⟩ := @Expr.call_body arguments e ⟨dataCapacity, callCapacity, none⟩ rfl hfit hcall 0
  refine ⟨m, _, hm, ofConfig_eq_ok hname hdata hcall hfit, fun hroom => ?_, fun hfull => ?_⟩
  · rw [execute_of_startFunction hstart, hvalue hroom]
    rfl
  · obtain ⟨cursor, hcursor⟩ := hoverflow hfull
    refine ⟨cursor, ?_⟩
    rw [execute_of_startFunction hstart, hcursor]
    rfl

/-- `(x - 300) * y`, for 7 and -1 and behind a memory: with room for four
values it is 293, and with room for three there is none for the constant. -/
theorem Interpreter.execute_expr_product :
    let arguments : List Int32 := [7, -1]
    let e : Expr arguments.length := .binary .mul (.binary .sub (.param 0 (by decide)) (.const 300))
      (.param 1 (by decide))
    let sections : List Section := [.memories [⟨1, none⟩], .exports [⟨"f", .func, 0⟩], .code [⟨[], e.body⟩]]
    ∃ m, decode (Module.ofSections "m" sections).encode = .ok m ∧
      (∃ vm, Interpreter.ofConfig ⟨"f", arguments, 4, 1, none⟩ = .ok vm ∧
        vm.execute m ⟨"f", arguments, 4, 1, none⟩ = .ok ⟨[.i32 293], 6⟩) ∧
      ∃ vm cursor, Interpreter.ofConfig ⟨"f", arguments, 3, 1, none⟩ = .ok vm ∧
        vm.execute m ⟨"f", arguments, 3, 1, none⟩ = .error (.fault ⟨0, cursor, .stackOverflow 3⟩) := by
  intro arguments e sections
  have hothers : ∀ s ∈ [Section.memories [⟨1, none⟩]], s.WellFormed ∧ s.content.length < 2 ^ 32 := by
    simp only [List.forall_mem_singleton, Section.WellFormed]
    exact ⟨by decide, by decide +kernel⟩
  have hsize : (Bytes.ofFunction ⟨[], e.body⟩).length ≤ Bounds.entrySize := by decide +kernel
  have hlength : (Utf8.encode "f").length < 2 ^ 31 := by decide
  have hvalue : Int32.ofInt (e.eval arguments) = 293 := by decide +kernel
  obtain ⟨m, vm, hm, hvm, hroom, -⟩ := @execute_expr arguments e [.memories [⟨1, none⟩]] "f" "m" 4 1 hothers
    hsize (by decide) hlength (by decide) (by decide) (by decide)
  obtain ⟨m', vm', hm', hvm', -, hfull⟩ := @execute_expr arguments e [.memories [⟨1, none⟩]] "f" "m" 3 1
    hothers hsize (by decide) hlength (by decide) (by decide) (by decide)
  obtain rfl : m = m' := Except.ok.inj (hm.symm.trans hm')
  obtain ⟨cursor, hcursor⟩ := hfull (by decide)
  refine ⟨m, hm, ⟨vm, hvm, ?_⟩, vm', cursor, hvm', hcursor⟩
  rw [hroom (by decide), hvalue]
  rfl

end StackVm
