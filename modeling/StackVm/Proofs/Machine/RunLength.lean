import Mathlib.Algebra.GroupWithZero.Nat
import StackVm.Proofs.Machine.ControlFlow

/-!
# How long runs are

No call comes back to a byte that it has passed. So a run dispatches no more
instructions than there are bytes left under the pointer and under those of the
callers (`Thread.bytesLeft`), and the execution of a function no more than its
body has bytes (`Thread.runs_within_bytes`).

* `Thread.LaidOut.bytesLeft_turn`: a turn after which the loop goes on uses up a
  byte, of the body that it is in;
* `Thread.LaidOut.endsWithin`: so every run ends within what is left at its start.

`Thread.left` counts one more for each frame, and bounds the runs of all threads.
Where calls are laid out this is not needed: only the outermost call has no
caller, and with it the run ends.
-/

namespace StackVm

/-- The bytes that the caller of a frame has left. -/
def CallFrame.bytesLeft (f : CallFrame) : Nat :=
  match f.caller with
  | none => 0
  | some p => p.left

namespace Thread

/-- The bytes left under the pointer, and under the pointer of every caller. -/
def bytesLeft (t : Thread) : Nat :=
  t.current.left + (t.calls.toListTopFirst.map CallFrame.bytesLeft).sum

variable {budget : Option Nat} {t t' : Thread} {op : Opcode} {progress : Progress}

theorem left_pos_of_fetch (h : t.fetch budget = .ok op) : 0 < t.current.left := by
  have hlt := cursor_lt_of_fetch h
  rw [Pointer.left]
  omega

/-! ## Turns -/

theorem bytesLeft_of_moves (hfetch : t.fetch budget = .ok op) (hop : op ≠ .endBody)
    (hexec : op.exec t.counted = .ok progress t') : t'.bytesLeft < t.bytesLeft := by
  have hpos := left_pos_of_fetch hfetch
  obtain ⟨hcalls, hbody, hcursor⟩ := Opcode.moves_exec hop _ _ _ hexec
  replace hcalls : t'.calls = t.calls := hcalls
  replace hbody : t'.current.body = t.current.body := hbody
  replace hcursor : t.current.cursor + 1 ≤ t'.current.cursor := hcursor
  simp only [bytesLeft, hcalls, Pointer.left, hbody] at hpos ⊢
  omega

/-- Back at a caller, nothing is left of the body that ended. -/
theorem LaidOut.bytesLeft_endBody (h : t.LaidOut) (hend : Exec.endBody t = .ok progress t') :
    progress = .returned ∧ (t'.calls.isEmpty = false → t'.bytesLeft + t.current.left = t.bytesLeft) := by
  have hnested := h.nested
  cases hframes : t.calls.toListTopFirst with
  | nil =>
    rw [Exec.endBody_of_nil hframes] at hend
    cases hend
  | cons f below =>
    rw [hframes] at hnested
    cases hnested with
    | cons hcount hbase hcaller _ =>
      obtain ⟨data, hend', -, -⟩ := Exec.endBody_eq hframes hcount hbase
      cases hend.symm.trans hend'
      refine ⟨rfl, fun hcalls => ?_⟩
      have hbelow : below ≠ [] := by simpa using hcalls
      obtain ⟨p, hp⟩ := Option.ne_none_iff_exists'.1 (mt hcaller.1 hbelow)
      simp only [bytesLeft, hframes, hp, Option.getD_some, Stack.toListTopFirst_ofTopFirst, List.map_cons,
        List.sum_cons, CallFrame.bytesLeft]
      omega

theorem LaidOut.bytesLeft_turn (h : t.LaidOut) (hturn : t.turn budget = .more t') :
    t'.bytesLeft < t.bytesLeft := by
  have hturned := turned budget t
  rw [hturn] at hturned
  cases hturned with
  | @next op _ hfetch hexec =>
    refine bytesLeft_of_moves hfetch (fun hop => ?_) hexec
    rw [hop] at hexec
    cases (h.count.bytesLeft_endBody hexec).1
  | @resumed op _ hfetch hexec hcalls =>
    by_cases hop : op = .endBody
    · rw [hop] at hexec
      have hleft : t'.bytesLeft + t.current.left = t.bytesLeft := (h.count.bytesLeft_endBody hexec).2 hcalls
      have hpos := left_pos_of_fetch hfetch
      omega
    · exact bytesLeft_of_moves hfetch hop hexec

/-! ## Runs -/

/-- The run of a thread comes to an end, after `bound` turns that go on or fewer,
and dispatches `bound` instructions or fewer, all of which it counts. -/
structure EndsWithin (budget : Option Nat) (t : Thread) (bound : Nat) : Prop where
  stops : ∃ count t₁ outcome t', count ≤ bound ∧ t.after? budget count = some t₁ ∧
    t₁.turn budget = .stop outcome t' ∧ t.run budget = (outcome, t')
  dispatched_le : (t.dispatched budget).length ≤ bound
  executed_eq : (t.run budget).2.executed = t.executed + (t.dispatched budget).length

theorem EndsWithin.cons {bound bound' : Nat} (h : t'.EndsWithin budget bound) (hlt : bound < bound')
    (hturn : t.turn budget = .more t') (hexecuted : t'.executed = t.executed + 1) :
    t.EndsWithin budget bound' := by
  obtain ⟨op, -, hfetch, -⟩ := exists_exec_of_more hturn
  obtain ⟨count, t₁, outcome, t₂, hcount, hafter, hstop, hrun⟩ := h.stops
  have hdispatched : (t.dispatched budget).length = (t'.dispatched budget).length + 1 := by
    rw [dispatched_of_more hturn, hfetch]
    simp [Except.toOption]
  have hle := h.dispatched_le
  constructor
  · refine ⟨count + 1, t₁, outcome, t₂, by omega, ?_, hstop, ?_⟩
    · rw [after?_succ_of_more hturn, hafter]
    · rw [run_of_more hturn, hrun]
  · omega
  · rw [run_of_more hturn, h.executed_eq]
    omega

theorem LaidOut.endsWithin (h : t.LaidOut) (budget : Option Nat) : t.EndsWithin budget t.bytesLeft := by
  induction t using Thread.run.induct budget with
  | case1 t t' hturn ih =>
    have hends := ih (h.keeps_of_more hturn).laidOut
    exact hends.cons (h.bytesLeft_turn hturn) hturn (h.executed_of_more hturn)
  | case2 t outcome t' hturn =>
    have hexecuted := h.executed_turn budget
    have hdispatched : (t.dispatched budget).length = (t.fetch budget).toOption.toList.length := by
      rw [dispatched_of_stop hturn, List.length_map]
    refine ⟨⟨0, t, outcome, t', Nat.zero_le _, rfl, hturn, run_of_stop hturn⟩, ?_, ?_⟩
    · rw [hdispatched]
      cases hfetch : t.fetch budget with
      | error trap => exact Nat.zero_le _
      | ok op => exact Nat.le_add_right_of_le (left_pos_of_fetch hfetch)
    · rw [hturn] at hexecuted
      rw [run_of_stop hturn, hdispatched]
      exact hexecuted

end Thread

/-- Once a function is entered, its body is all that is left. -/
theorem Interpreter.bytesLeft_of_enter {vm : Interpreter} {index : UInt32} {f : Function}
    {arguments : List Int32} {t : Thread} (h : vm.enter index f arguments = .ok t) :
    t.bytesLeft = f.body.length := by
  obtain ⟨-, rfl⟩ := eq_within_of_enter h
  simp [Thread.bytesLeft, SplitThread.within_eq, Activation.frames, Activation.frame, CallFrame.bytesLeft,
    Pointer.left, Pointer.start, Pointer.place]

/-- Whatever a host has asked of a thread, its run ends within the bytes that are
left under its pointer and those of its callers. So the execution of a function,
with any arguments and bounds, ends within its body. -/
theorem Thread.runs_within_bytes :
    (∀ (dataCapacity callCapacity : Nat) (requests : List Request) (budget : Option Nat),
      let t := requests.foldl serve (new dataCapacity callCapacity)
      t.EndsWithin budget t.bytesLeft) ∧
    ∀ (vm : Interpreter) (m : Module) (c : Config),
      match m.startFunction c.startFunction with
      | .error e => vm.execute m c = .error e
      | .ok (index, f) =>
        (∀ t, vm.enter index f c.initialValues = .ok t → t.EndsWithin vm.maxInstructions f.body.length) ∧
        (vm.dispatched m c).length ≤ f.body.length ∧
        ∀ r, vm.execute m c = .ok r → r.executed ≤ f.body.length := by
  refine ⟨fun dataCapacity callCapacity requests budget => ?_, fun vm m c => ?_⟩
  · exact ((laidOut_new dataCapacity callCapacity).keeps_requests requests).laidOut.endsWithin budget
  · cases hstart : m.startFunction c.startFunction with
    | error e => rw [Interpreter.execute, hstart]
    | ok found =>
      obtain ⟨index, f⟩ := found
      have hends : ∀ t, vm.enter index f c.initialValues = .ok t →
          t.EndsWithin vm.maxInstructions f.body.length := by
        intro t henter
        rw [← Interpreter.bytesLeft_of_enter henter]
        exact (Interpreter.eq_within_of_enter henter).1.endsWithin vm.maxInstructions
      have hdispatched : (vm.dispatched m c).length ≤ f.body.length := by
        rw [Interpreter.dispatched_eq vm hstart]
        cases henter : vm.enter index f c.initialValues with
        | error fault => exact Nat.zero_le _
        | ok t => exact (hends t henter).dispatched_le
      refine ⟨hends, hdispatched, fun r hr => ?_⟩
      obtain ⟨hall, hexecuted, -⟩ := (Interpreter.dispatched_outline vm hstart).2 r hr
      rw [hexecuted, ← hall]
      exact hdispatched

/-- A call within a call: seven bytes of the callee and two of the caller are
left, and six instructions are dispatched. The callee alone takes four, and
returns before its last byte. -/
theorem Thread.runs_within_bytes_nested :
    let main : Function := ⟨[.i64], [0x41, 0x03, 0x20, 0x00, 0x6a, 0x0b]⟩
    let negated : Function := ⟨[], [0x20, 0x00, 0x41, 0x7f, 0x6c, 0x0b, 0x01]⟩
    let requests : List Request := [.enter 0 main [.i32 5], .run (some 2), .enter 1 negated [.i32 7]]
    let t := requests.foldl serve (new 8 2)
    let m := Module.ofSections "m" [.exports [⟨"f", .func, 1⟩], .code [main, negated]]
    let c : Config := ⟨"f", [7], 8, 1, none⟩
    let vm : Interpreter := ⟨8, 1, none⟩
    t.bytesLeft = 9 ∧ (t.dispatched none).length = 6 ∧ t.EndsWithin none 9 ∧
      m.startFunction "f" = .ok (1, negated) ∧ vm.execute m c = .ok ⟨[.i32 (-7)], 4⟩ ∧ 4 ≤ 7 := by
  intro main negated requests t m c vm
  have hbytes : t.bytesLeft = 9 := by decide +kernel
  have hstart : m.startFunction c.startFunction = .ok (1, negated) :=
    Module.startFunction_ofSections "m" "f" rfl
  have hcall : vm.call 1 negated c.initialValues = .ok ⟨[.i32 (-7)], 4⟩ := by decide +kernel
  have hexecute : vm.execute m c = .ok ⟨[.i32 (-7)], 4⟩ := by
    rw [Interpreter.execute_of_startFunction hstart, hcall]
    rfl
  obtain ⟨hruns, hexecutions⟩ := runs_within_bytes
  have hexecution := hexecutions vm m c
  rw [hstart] at hexecution
  refine ⟨hbytes, by decide +kernel, hbytes ▸ hruns 8 2 requests none, hstart, hexecute, ?_⟩
  exact hexecution.2.2 _ hexecute

end StackVm
