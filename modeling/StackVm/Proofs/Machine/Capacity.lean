import StackVm.Proofs.Machine.Budget
import StackVm.Proofs.Machine.RunLength

/-!
# How much room executions need

The deepest that the data stack gets in a run (`Thread.peak`) decides about the
capacity that the run needs. With as much room or more it is the same run, and
with less it overflows (`Thread.capped`), whatever the capacity of the call stack
is. An execution reaches no more than its locals and one value for each byte of
its body, so a data stack of that capacity is as good as one without a limit
(`Interpreter.Ample`), and its peak is the threshold for all others
(`Interpreter.execute_with_capacity`).

* `Thread.turn_resized_of_more`, `Thread.turn_resized_of_stop`: a turn on stacks of
  other capacities, with room for what it leaves;
* `Thread.exists_turn_resized_of_lt`: a turn without room for it.
-/

namespace StackVm

/-- A fault for lack of room. -/
def Fault.IsOverflow (fault : Fault) : Prop :=
  ∃ capacity, fault.trap = .stackOverflow capacity

namespace Thread

variable {budget : Option Nat} {t t' : Thread} {dataCapacity callCapacity : Nat}

/-! ## Turns -/

theorem turn_resized_of_more (hturn : t.turn budget = .more t') (hroom : t'.data.depth ≤ dataCapacity) :
    (t.resized dataCapacity callCapacity).turn budget = .more (t'.resized dataCapacity callCapacity) := by
  have hturned := turned budget t
  rw [hturn] at hturned
  cases hturned with
  | @next op _ hfetch hexec =>
    replace hfetch : (t.resized dataCapacity callCapacity).fetch budget = .ok op := hfetch
    rw [turn, hfetch]
    exact dispatch_of_next (op.pushesLast_exec.resized_of_le hexec hroom)
  | @resumed op _ hfetch hexec hcalls =>
    replace hfetch : (t.resized dataCapacity callCapacity).fetch budget = .ok op := hfetch
    rw [turn, hfetch]
    refine (dispatch_of_returned (op.pushesLast_exec.resized_of_le hexec hroom)).trans (if_neg ?_)
    exact Bool.not_eq_true _ ▸ hcalls

theorem turn_resized_of_stop {outcome : Except Fault Unit} (hturn : t.turn budget = .stop outcome t')
    (hroom : t'.data.depth ≤ dataCapacity) (houtcome : ∀ fault, outcome = .error fault → ¬ fault.IsOverflow) :
    (t.resized dataCapacity callCapacity).turn budget =
      .stop outcome (t'.resized dataCapacity callCapacity) := by
  have hturned := turned budget t
  rw [hturn] at hturned
  cases hturned with
  | @refused trap hfetch => exact turn_of_fetch_error hfetch
  | @returned op _ hfetch hexec hcalls =>
    replace hfetch : (t.resized dataCapacity callCapacity).fetch budget = .ok op := hfetch
    rw [turn, hfetch]
    exact (dispatch_of_returned (op.pushesLast_exec.resized_of_le hexec hroom)).trans (if_pos hcalls)
  | @trapped op trap _ hfetch hexec =>
    replace hfetch : (t.resized dataCapacity callCapacity).fetch budget = .ok op := hfetch
    rw [turn, hfetch]
    have hown : trap ≠ .stackOverflow t.data.capacity := fun htrap => houtcome _ rfl ⟨_, htrap⟩
    exact dispatch_of_error (op.pushesLast_exec.resized_of_error hexec hown)

theorem exists_turn_resized_of_lt {op : Opcode} {progress : Progress} (hfetch : t.fetch budget = .ok op)
    (hexec : op.exec t.counted = .ok progress t') (hdepth : t.data.depth ≤ dataCapacity)
    (hfull : dataCapacity < t'.data.depth) :
    ∃ t₁, (t.resized dataCapacity callCapacity).turn budget =
      .stop (.error (t.current.fault (.stackOverflow dataCapacity))) t₁ := by
  obtain ⟨t₁, ht₁⟩ := op.pushesLast_exec.overflow_of_lt hexec hdepth hfull
  replace hfetch : (t.resized dataCapacity callCapacity).fetch budget = .ok op := hfetch
  refine ⟨t₁, ?_⟩
  rw [turn, hfetch]
  exact dispatch_of_error ht₁

/-- The last turn of a run takes no room. -/
theorem depth_le_of_stop {outcome : Except Fault Unit} (hturn : t.turn budget = .stop outcome t') :
    t'.data.depth ≤ t.data.depth := by
  have hturned := turned budget t
  rw [hturn] at hturned
  cases hturned with
  | refused => exact Nat.le_refl _
  | @returned op _ _ hexec _ =>
    have hdepth := op.pushesLast_exec.depth_le_of_returned hexec
    exact hdepth
  | @trapped op _ _ _ hexec => exact (op.pushesLast_exec.trap_cases hexec).1

/-! ## Runs -/

/-- The largest depth of the data stack in a run, from its start to its end. -/
def peak (budget : Option Nat) (t : Thread) : Nat :=
  match _h : t.turn budget with
  | .more t' => max t.data.depth (t'.peak budget)
  | .stop _ t' => max t.data.depth t'.data.depth
termination_by t.left
decreasing_by exact left_turn _h

theorem peak_of_more (h : t.turn budget = .more t') :
    t.peak budget = max t.data.depth (t'.peak budget) := by
  rw [peak, h]

theorem peak_of_stop {outcome : Except Fault Unit} (h : t.turn budget = .stop outcome t') :
    t.peak budget = max t.data.depth t'.data.depth := by
  rw [peak, h]

theorem depth_le_peak (budget : Option Nat) (t : Thread) : t.data.depth ≤ t.peak budget := by
  cases h : t.turn budget with
  | more t' =>
    rw [peak_of_more h]
    exact Nat.le_max_left _ _
  | stop outcome t' =>
    rw [peak_of_stop h]
    exact Nat.le_max_left _ _

/-- What a run is on stacks of other capacities. -/
structure Capped (budget : Option Nat) (t : Thread) (dataCapacity callCapacity : Nat) : Prop where
  run_eq : t.peak budget ≤ dataCapacity → (t.resized dataCapacity callCapacity).run budget =
    ((t.run budget).1, (t.run budget).2.resized dataCapacity callCapacity)
  overflows : dataCapacity < t.peak budget → ∃ fault t',
    (t.resized dataCapacity callCapacity).run budget = (.error fault, t') ∧
      fault.trap = .stackOverflow dataCapacity

theorem capped_of_overflow {trap : Trap} {t₁ : Thread} (hpeak : dataCapacity < t.peak budget)
    (hturn : (t.resized dataCapacity callCapacity).turn budget = .stop (.error (t.current.fault trap)) t₁)
    (htrap : trap = .stackOverflow dataCapacity) : t.Capped budget dataCapacity callCapacity where
  run_eq hle := absurd hpeak (Nat.not_lt_of_le hle)
  overflows _ := ⟨_, t₁, run_of_stop hturn, htrap⟩

/-- A run that does not overflow, on stacks of other capacities. The induction is
on the run; as long as what a turn leaves has room on both, they go together. -/
theorem capped (hdepth : t.data.depth ≤ dataCapacity)
    (hrun : ∀ fault, (t.run budget).1 = .error fault → ¬ fault.IsOverflow) :
    t.Capped budget dataCapacity callCapacity := by
  induction t using Thread.run.induct budget with
  | case1 t t' hturn ih =>
    have hpeak := peak_of_more hturn
    have hle := depth_le_peak budget t'
    rw [run_of_more hturn] at hrun
    by_cases hroom : t'.data.depth ≤ dataCapacity
    · have hturn' := @turn_resized_of_more _ _ _ _ callCapacity hturn hroom
      obtain ⟨hsame, hover⟩ := ih hroom hrun
      constructor
      · intro hfits
        rw [run_of_more hturn', run_of_more hturn]
        exact hsame (by omega)
      · intro hfull
        rw [run_of_more hturn']
        exact hover (by omega)
    · obtain ⟨op, progress, hfetch, hexec⟩ := exists_exec_of_more hturn
      obtain ⟨t₁, ht₁⟩ := @exists_turn_resized_of_lt _ _ _ _ callCapacity _ _ hfetch hexec hdepth
        (Nat.lt_of_not_le hroom)
      exact capped_of_overflow (by omega) ht₁ rfl
  | case2 t outcome t' hturn =>
    have hpeak := peak_of_stop hturn
    rw [run_of_stop hturn] at hrun
    have hroom : t'.data.depth ≤ dataCapacity := Nat.le_trans (depth_le_of_stop hturn) hdepth
    have hturn' := @turn_resized_of_stop _ _ _ _ callCapacity _ hturn hroom hrun
    constructor
    · intro _
      rw [run_of_stop hturn', run_of_stop hturn]
    · intro hfull
      omega

theorem LaidOut.peak_le (h : t.LaidOut) (budget : Option Nat) : t.peak budget ≤ t.data.capacity := by
  have hle := h.depth_le
  induction t using Thread.run.induct budget with
  | case1 t t' hturn ih =>
    have hkeeps := h.keeps_of_more hturn
    have hpeak := ih hkeeps.laidOut hkeeps.laidOut.depth_le
    have hcapacity := hkeeps.dataCapacity_eq
    rw [peak_of_more hturn]
    omega
  | case2 t outcome t' hturn =>
    have hdepth := depth_le_of_stop hturn
    rw [peak_of_stop hturn]
    omega

/-- A run does not overflow if there is room for a value for each byte that is
left. -/
theorem LaidOut.not_isOverflow (h : t.LaidOut) (hroom : t.data.depth + t.bytesLeft ≤ t.data.capacity)
    {fault : Fault} (hrun : (t.run budget).1 = .error fault) : ¬ fault.IsOverflow := by
  induction t using Thread.run.induct budget with
  | case1 t t' hturn ih =>
    obtain ⟨op, progress, -, hexec⟩ := exists_exec_of_more hturn
    have hkeeps := h.keeps_of_more hturn
    have hcapacity := hkeeps.dataCapacity_eq
    have hbytes := h.bytesLeft_turn hturn
    have hdepth := op.pushesLast_exec.depth_le_succ hexec
    replace hdepth : t'.data.depth ≤ t.data.depth + 1 := hdepth
    rw [run_of_more hturn] at hrun
    exact ih hkeeps.laidOut (by omega) hrun
  | case2 t outcome t' hturn =>
    rw [run_of_stop hturn] at hrun
    cases hrun
    have hturned := turned budget t
    rw [hturn] at hturned
    rintro ⟨capacity, hcapacity⟩
    cases hturned with
    | @refused trap hfetch =>
      have htrap := trap_of_fetch hfetch
      rw [show trap = .stackOverflow capacity from hcapacity] at htrap
      rcases htrap with ⟨-, htrap⟩ | htrap <;> cases htrap
    | @trapped op trap _ hfetch hexec =>
      have hpos := left_pos_of_fetch hfetch
      rcases (op.pushesLast_exec.trap_cases hexec).2 with hown | ⟨-, hfull⟩
      · rw [show trap = .stackOverflow capacity from hcapacity] at hown
        cases hown
      · replace hfull : t.data.capacity ≤ t.data.depth := hfull
        rw [bytesLeft] at hroom
        omega

end Thread

/-! ## Executions -/

namespace Interpreter

/-- The largest depth of the data stack in a call, the locals that it starts with
included. -/
def peak (vm : Interpreter) (index : UInt32) (f : Function) (arguments : List Int32) : Nat :=
  match Exec.enter index f (arguments.map .i32) (.new vm.dataCapacity vm.callCapacity) with
  | .ok () t => t.peak vm.maxInstructions
  | .error _ t => t.data.depth

/-- Room for the locals of a call, and for a value for each byte of the body. No
call needs more. -/
def Ample (vm : Interpreter) (f : Function) (arguments : List Int32) : Prop :=
  arguments.length + f.locals.length + f.body.length ≤ vm.dataCapacity

variable {vm vm' : Interpreter} {m : Module} {c : Config} {index : UInt32} {f : Function}
  {arguments : List Int32} {t : Thread}

theorem peak_of_enter (h : vm.enter index f arguments = .ok t) :
    vm.peak index f arguments = t.peak vm.maxInstructions := by
  rw [enter] at h
  rw [peak]
  cases hentered : Exec.enter index f (arguments.map .i32) (.new vm.dataCapacity vm.callCapacity) with
  | ok _ t' =>
    rw [hentered] at h
    exact congrArg _ (Except.ok.inj h)
  | error trap t' =>
    rw [hentered] at h
    cases h

/-- The thread that has entered a function, on stacks that are full. -/
def entered (index : UInt32) (f : Function) (arguments : List Int32) : Thread :=
  let locals := Exec.localsOf f (arguments.map .i32)
  { calls := .ofTopFirst [⟨none, locals.length, locals.length⟩] 1
    data := .ofTopFirst locals.reverse locals.length
    current := .start index f.body
    executed := 0 }

theorem depth_entered (index : UInt32) (f : Function) (arguments : List Int32) :
    (entered index f arguments).data.depth = arguments.length + f.locals.length := by
  simp [entered, Exec.localsOf, Nat.add_comm]

/-- A function is entered if there is room for its locals and for a call. -/
theorem enter_eq (vm : Interpreter) (index : UInt32) (f : Function) (arguments : List Int32) :
    vm.enter index f arguments =
      if arguments.length + f.locals.length ≤ vm.dataCapacity then
        if 0 < vm.callCapacity then
          .ok ((entered index f arguments).resized vm.dataCapacity vm.callCapacity)
        else .error ⟨index, 0, .stackOverflow vm.callCapacity⟩
      else .error ⟨index, 0, .stackOverflow vm.dataCapacity⟩ := by
  have hlength : (Exec.localsOf f (arguments.map .i32)).length = arguments.length + f.locals.length := by
    rw [Exec.length_localsOf, List.length_map]
  have hentered := Exec.enter_eq index f (arguments.map .i32) (.new vm.dataCapacity vm.callCapacity)
  simp only [hlength] at hentered
  by_cases hroom : arguments.length + f.locals.length ≤ vm.dataCapacity
  · by_cases hcalls : 0 < vm.callCapacity
    · replace hentered := hentered.trans ((if_pos hroom).trans (if_pos hcalls))
      rw [enter, hentered, if_pos hroom, if_pos hcalls]
      simp [entered, Thread.resized, Stack.resized, Exec.withValues, Exec.frameOn, Thread.new, Thread.results,
        Stack.empty, Stack.isEmpty, Stack.ofTopFirst, Stack.toListTopFirst, Stack.depth, hlength]
    · replace hentered := hentered.trans ((if_pos hroom).trans (if_neg hcalls))
      rw [enter, hentered, if_pos hroom, if_neg hcalls]
      rfl
  · replace hentered := hentered.trans (if_neg hroom)
    rw [enter, hentered, if_neg hroom]
    rfl

/-- An execution that does not overflow, with other capacities. What it reaches
decides whether it is the same. -/
theorem execute_of_peak (hstart : m.startFunction c.startFunction = .ok (index, f))
    (henter : vm.enter index f c.initialValues = .ok t)
    (hrun : ∀ fault, (t.run vm.maxInstructions).1 = .error fault → ¬ fault.IsOverflow)
    (hbudget : vm'.maxInstructions = vm.maxInstructions) (hcalls : 0 < vm'.callCapacity) :
    (t.peak vm.maxInstructions ≤ vm'.dataCapacity → vm'.execute m c = vm.execute m c) ∧
    (vm'.dataCapacity < t.peak vm.maxInstructions → ∃ fault,
      vm'.execute m c = .error (.fault fault) ∧ fault.trap = .stackOverflow vm'.dataCapacity) := by
  have ht : t = (entered index f c.initialValues).resized vm.dataCapacity vm.callCapacity := by
    rw [enter_eq] at henter
    split_ifs at henter
    exact (Except.ok.inj henter).symm
  have hdepth : t.data.depth = c.initialValues.length + f.locals.length := by
    rw [ht, ← depth_entered index f]
    rfl
  have henter' := enter_eq vm' index f c.initialValues
  by_cases hroom : c.initialValues.length + f.locals.length ≤ vm'.dataCapacity
  · replace henter' : vm'.enter index f c.initialValues =
        .ok (t.resized vm'.dataCapacity vm'.callCapacity) := by
      rw [henter', if_pos hroom, if_pos hcalls, ht]
      rfl
    have hcapped := @Thread.capped vm.maxInstructions t vm'.dataCapacity vm'.callCapacity (by omega) hrun
    rw [execute_of_enter hstart henter, execute_of_enter hstart henter', hbudget]
    constructor
    · intro hfits
      rw [hcapped.run_eq hfits]
      rcases t.run vm.maxInstructions with ⟨_ | _, t'⟩ <;> rfl
    · intro hfull
      obtain ⟨fault, t', hover, htrap⟩ := hcapped.overflows hfull
      rw [hover]
      exact ⟨fault, rfl, htrap⟩
  · rw [if_neg hroom] at henter'
    have hle := t.depth_le_peak vm.maxInstructions
    constructor
    · intro hfits
      omega
    · intro _
      rw [execute_of_startFunction hstart, call, henter']
      exact ⟨_, rfl, rfl⟩

/-- With ample room, a function is entered and does not overflow. -/
theorem Ample.exists_enter (hample : vm.Ample f arguments) (hcalls : 0 < vm.callCapacity) (index : UInt32) :
    ∃ t, vm.enter index f arguments = .ok t ∧
      ∀ fault, (t.run vm.maxInstructions).1 = .error fault → ¬ fault.IsOverflow := by
  rw [Ample] at hample
  have henter := enter_eq vm index f arguments
  rw [if_pos (by omega), if_pos hcalls] at henter
  have hdepth : ((entered index f arguments).resized vm.dataCapacity vm.callCapacity).data.depth =
      arguments.length + f.locals.length := depth_entered index f arguments
  refine ⟨_, henter, fun fault => (eq_within_of_enter henter).1.not_isOverflow ?_⟩
  rw [bytesLeft_of_enter henter, hdepth]
  exact hample

/-- An execution that does not overflow gets to run, and its run does not
overflow. -/
theorem exists_enter_of_execute (hstart : m.startFunction c.startFunction = .ok (index, f))
    (hresult : ∀ fault, vm.execute m c = .error (.fault fault) → ¬ fault.IsOverflow) :
    ∃ t, vm.enter index f c.initialValues = .ok t ∧
      ∀ fault, (t.run vm.maxInstructions).1 = .error fault → ¬ fault.IsOverflow := by
  cases henter : vm.enter index f c.initialValues with
  | error fault =>
    have hexecute : vm.execute m c = .error (.fault fault) := by
      rw [execute_of_startFunction hstart, call, henter]
      rfl
    refine absurd ?_ (hresult fault hexecute)
    rw [enter_eq] at henter
    split_ifs at henter <;> cases henter <;> exact ⟨_, rfl⟩
  | ok t =>
    refine ⟨t, rfl, fun fault hfault => hresult fault ?_⟩
    rw [execute_of_enter hstart henter]
    rcases hrun : t.run vm.maxInstructions with ⟨_ | _, t'⟩ <;> rw [hrun] at hfault <;> cases hfault
    rfl

/-- The deepest that the data stack gets in an execution with ample room is the
least capacity that the execution needs: with that or more the result is the same,
and with less it is an overflow. So a result that is no overflow stays the same
with more room for values or for calls. -/
theorem execute_with_capacity {vm unlimited : Interpreter} {m : Module} {c : Config} {index : UInt32}
    {f : Function} (hstart : m.startFunction c.startFunction = .ok (index, f))
    (hample : unlimited.Ample f c.initialValues) (hunlimited : 1 ≤ unlimited.callCapacity)
    (hcalls : 1 ≤ vm.callCapacity) (hbudget : vm.maxInstructions = unlimited.maxInstructions) :
    let peak := unlimited.peak index f c.initialValues
    (∀ fault, unlimited.execute m c = .error (.fault fault) → ¬ fault.IsOverflow) ∧
    (peak ≤ vm.dataCapacity → vm.execute m c = unlimited.execute m c) ∧
    (vm.dataCapacity < peak → ∃ fault,
      vm.execute m c = .error (.fault fault) ∧ fault.trap = .stackOverflow vm.dataCapacity) ∧
    ∀ larger : Interpreter, vm.dataCapacity ≤ larger.dataCapacity → vm.callCapacity ≤ larger.callCapacity →
      larger.maxInstructions = vm.maxInstructions →
      (∀ fault, vm.execute m c = .error (.fault fault) → ¬ fault.IsOverflow) →
      larger.execute m c = vm.execute m c := by
  intro peak
  obtain ⟨t, henter, hrun⟩ := hample.exists_enter hunlimited index
  have hpeak : peak = t.peak unlimited.maxInstructions := peak_of_enter henter
  obtain ⟨hfits, hfull⟩ := execute_of_peak hstart henter hrun hbudget hcalls
  refine ⟨fun fault hfault => ?_, hpeak ▸ hfits, hpeak ▸ hfull, fun larger hdata hcall hsame hresult => ?_⟩
  · rw [execute_of_enter hstart henter] at hfault
    rcases hstop : t.run unlimited.maxInstructions with ⟨_ | _, t'⟩ <;> rw [hstop] at hfault hrun <;> cases hfault
    exact hrun _ rfl
  · obtain ⟨t', henter', hrun'⟩ := exists_enter_of_execute hstart hresult
    have hle := (eq_within_of_enter henter').1.peak_le vm.maxInstructions
    have hcapacity : t'.data.capacity = vm.dataCapacity := by
      rw [(eq_within_of_enter henter').2]
      rfl
    refine (execute_of_peak hstart henter' hrun' hsame (Nat.lt_of_lt_of_le hcalls hcall)).1 ?_
    omega

/-- Two locals and two operands: four values are enough, and three are not. -/
theorem execute_with_capacity_sum :
    let f : Function := ⟨[.i64], [0x41, 0x03, 0x20, 0x00, 0x6a, 0x0b]⟩
    let m := Module.ofSections "m" [.exports [⟨"f", .func, 0⟩], .code [f]]
    let c : Config := ⟨"f", [5], 8, 1, none⟩
    let unlimited : Interpreter := ⟨8, 1, none⟩
    m.startFunction "f" = .ok (0, f) ∧ unlimited.Ample f c.initialValues ∧
      unlimited.peak 0 f c.initialValues = 4 ∧ unlimited.execute m c = .ok ⟨[.i32 8], 4⟩ ∧
      Interpreter.execute ⟨4, 3, none⟩ m c = .ok ⟨[.i32 8], 4⟩ ∧
      (∃ fault, Interpreter.execute ⟨3, 1, none⟩ m c = .error (.fault fault) ∧
        fault.trap = .stackOverflow 3) ∧
      Interpreter.execute ⟨5, 4, none⟩ m c = Interpreter.execute ⟨4, 3, none⟩ m c := by
  intro f m c unlimited
  have hstart : m.startFunction c.startFunction = .ok (0, f) := Module.startFunction_ofSections "m" "f" rfl
  have hample : unlimited.Ample f c.initialValues := by
    show 8 ≤ 8
    decide
  have hpeak : unlimited.peak 0 f c.initialValues = 4 := by decide +kernel
  have hcall : unlimited.call 0 f c.initialValues = .ok ⟨[.i32 8], 4⟩ := by decide +kernel
  have hexecute : unlimited.execute m c = .ok ⟨[.i32 8], 4⟩ := by
    rw [execute_of_startFunction hstart, hcall]
    rfl
  obtain ⟨-, hfour, -, hlarger⟩ := @execute_with_capacity ⟨4, 3, none⟩ unlimited m c 0 f hstart hample
    (by decide) (by decide) rfl
  obtain ⟨-, -, hthree, -⟩ := @execute_with_capacity ⟨3, 1, none⟩ unlimited m c 0 f hstart hample
    (by decide) (by decide) rfl
  have hresult : Interpreter.execute ⟨4, 3, none⟩ m c = .ok ⟨[.i32 8], 4⟩ :=
    (hfour (Nat.le_of_eq hpeak)).trans hexecute
  refine ⟨hstart, hample, hpeak, hexecute, hresult, hthree (hpeak ▸ by decide), ?_⟩
  refine hlarger ⟨5, 4, none⟩ (by decide) (by decide) rfl fun fault hfault => ?_
  rw [hresult] at hfault
  cases hfault

end Interpreter

end StackVm
