import StackVm.Machine.Run
import StackVm.Proofs.Machine.Refinement

/-!
# Turns of the innermost call

As long as a call is the innermost one, a turn without a budget depends on its
activation only, and on whether there is room for one more value
(`Activation.next`).

* `SplitThread.turn_within`: what the turn does to the thread, for each of the
  three ways in which the activation can go on, and `run_within_of_next`,
  `run_within_of_trap` and `run_within_of_end` what this means for a run;
* `SplitThread.enter_flatten_eq_ok_iff`: how a call becomes the innermost one.

Of any thread, `Thread.turned` says what a turn can come to, and `Thread.after?`
is the thread that a number of turns leads to.
-/

namespace StackVm

theorem Pointer.advance_advance (p : Pointer) (first second : Nat) :
    (p.advance first).advance second = p.advance (first + second) := by
  simp only [advance, Nat.add_assoc, List.drop_drop]

/-- What the next instruction of a call makes of its activation; nothing is
left of it at the end of the body. -/
def Activation.next (room : Except Trap Unit) (a : Activation) : Except Trap (Option Activation) :=
  match a.pointer.current? with
  | none => .error .endOfBody
  | some b =>
    match Opcode.ofByte? b with
    | none => .error (.invalidOpcode b)
    | some op => a.exec room op

theorem Activation.next_of_opcode {a : Activation} {b : UInt8} {op : Opcode} {rest : List UInt8}
    (h : a.pointer.rest = b :: rest) (hop : Opcode.ofByte? b = some op) (room : Except Trap Unit) :
    a.next room = a.exec room op := by
  simp only [next, Pointer.current?, h, List.head?_cons, hop]

theorem Activation.next_of_rest {a : Activation} {op : Opcode} {rest : List UInt8}
    (h : a.pointer.rest = op.byte :: rest) (room : Except Trap Unit) : a.next room = a.exec room op :=
  next_of_opcode h op.ofByte?_byte room

namespace Thread

variable {budget : Option Nat} {t t' : Thread}

theorem run_of_more (h : t.turn budget = .more t') : t.run budget = t'.run budget := by
  rw [run, h]

theorem run_of_stop {outcome : Except Fault Unit} (h : t.turn budget = .stop outcome t') :
    t.run budget = (outcome, t') := by
  rw [run, h]

/-- The thread that has one more instruction counted. -/
def counted (t : Thread) : Thread :=
  { t with executed := t.executed + 1 }

/-- The ways in which a turn can go. -/
inductive Turned (budget : Option Nat) (t : Thread) : Turn → Prop
  | refused {trap : Trap} :
    t.fetch budget = .error trap → Turned budget t (.stop (.error (t.current.fault trap)) t)
  | next {op : Opcode} {t' : Thread} :
    t.fetch budget = .ok op → op.exec t.counted = .ok .next t' → Turned budget t (.more t')
  /-- Back to a caller. -/
  | resumed {op : Opcode} {t' : Thread} :
    t.fetch budget = .ok op → op.exec t.counted = .ok .returned t' → t'.calls.isEmpty = false →
      Turned budget t (.more t')
  | returned {op : Opcode} {t' : Thread} :
    t.fetch budget = .ok op → op.exec t.counted = .ok .returned t' → t'.calls.isEmpty = true →
      Turned budget t (.stop (.ok ()) t')
  | trapped {op : Opcode} {trap : Trap} {t' : Thread} :
    t.fetch budget = .ok op → op.exec t.counted = .error trap t' →
      Turned budget t (.stop (.error (t.current.fault trap)) t')

theorem turned (budget : Option Nat) (t : Thread) : t.Turned budget (t.turn budget) := by
  rw [turn]
  cases hop : t.fetch budget with
  | error trap => exact .refused hop
  | ok op =>
    show t.Turned budget (t.dispatch op)
    rcases hexec : op.exec t.counted with ⟨_ | _, t'⟩ | ⟨trap, t'⟩
    · rw [dispatch_of_next hexec]
      exact .next hop hexec
    · rw [dispatch_of_returned hexec]
      cases hcalls : t'.calls.isEmpty with
      | true => exact .returned hop hexec hcalls
      | false => exact .resumed hop hexec hcalls
    · rw [dispatch_of_error hexec]
      exact .trapped hop hexec

/-- An instruction was fetched if the loop goes on, and it succeeded. -/
theorem exists_exec_of_more (h : t.turn budget = .more t') :
    ∃ op progress, t.fetch budget = .ok op ∧ op.exec t.counted = .ok progress t' := by
  have hturned := turned budget t
  rw [h] at hturned
  cases hturned with
  | next hop hexec => exact ⟨_, _, hop, hexec⟩
  | resumed hop hexec _ => exact ⟨_, _, hop, hexec⟩

/-- The thread after `count` turns, if the loop goes on after each of them. -/
def after? (budget : Option Nat) : Nat → Thread → Option Thread
  | 0, t => some t
  | count + 1, t =>
    match t.turn budget with
    | .more t' => after? budget count t'
    | .stop _ _ => none

theorem after?_succ_of_more (h : t.turn budget = .more t') (count : Nat) :
    t.after? budget (count + 1) = t'.after? budget count := by
  rw [after?, h]

end Thread

namespace SplitThread

/-- The machine after `count` more instructions. -/
def after (m : SplitThread) (count : Nat) : SplitThread :=
  { m with executed := m.executed + count }

theorem after_after (m : SplitThread) (first second : Nat) :
    (m.after first).after second = m.after (first + second) := by
  rw [after, after, after, Nat.add_assoc]

/-- Whether there is room for a value when `a` is the innermost call. -/
def roomFor (m : SplitThread) (rest : List Activation) (a : Activation) : Except Trap Unit :=
  SplitThread.room { m with activations := a :: rest }

/-- What a turn of the thread within which `a` is innermost comes to, put by
what the next instruction makes of `a`. -/
def Turns (m : SplitThread) (rest : List Activation) (a : Activation) (turn : Turn) :
    Except Trap (Option Activation) → Prop
  | .ok (some a') => turn = .more ((m.after 1).within rest a')
  | .ok none => turn =
      if rest.isEmpty then .stop (.ok ()) ((m.after 1).leave a rest).flatten
      else .more ((m.after 1).leave a rest).flatten
  | .error trap => ∃ t, turn = .stop (.error (a.pointer.fault trap)) t

variable {m : SplitThread} {rest : List Activation} {a a' : Activation}

theorem roomFor_of_lt (h : (a.values ++ m.below rest).length < m.dataCapacity) :
    m.roomFor rest a = .ok () := by
  rw [List.length_append] at h
  rw [roomFor, room, length_values_of_activations rfl]
  exact if_pos h

theorem roomFor_of_le (h : m.dataCapacity ≤ (a.values ++ m.below rest).length) :
    m.roomFor rest a = .error (.stackOverflow m.dataCapacity) := by
  rw [List.length_append] at h
  rw [roomFor, room, length_values_of_activations rfl]
  exact if_neg (Nat.not_lt_of_le h)

theorem turn_within (hcap : (a.values ++ m.below rest).length ≤ m.dataCapacity) :
    m.Turns rest a ((m.within rest a).turn none) (a.next (m.roomFor rest a)) := by
  have hfetch : (m.within rest a).fetch none =
      match a.pointer.current? with
      | none => .error .endOfBody
      | some b =>
        match Opcode.ofByte? b with
        | none => .error (.invalidOpcode b)
        | some op => .ok op := rfl
  rw [Thread.turn, hfetch, Activation.next]
  cases a.pointer.current? with
  | none => exact ⟨_, rfl⟩
  | some b =>
    simp only
    cases Opcode.ofByte? b with
    | none => exact ⟨_, rfl⟩
    | some op =>
      -- the instruction is counted before it is executed
      have hagrees : (m.after 1).Agrees rest a
          (op.exec { m.within rest a with executed := (m.within rest a).executed + 1 })
          (a.exec (m.roomFor rest a) op) := @agrees_exec (m.after 1) rest a hcap op
      show m.Turns rest a ((m.within rest a).dispatch op) (a.exec (m.roomFor rest a) op)
      rcases hmade : a.exec (m.roomFor rest a) op with trap | _ | a'
      · rw [hmade] at hagrees
        obtain ⟨t, ht⟩ := hagrees
        exact ⟨t, Thread.dispatch_of_error ht⟩
      · rw [hmade] at hagrees
        have hreturned := Thread.dispatch_of_returned hagrees
        rw [isEmpty_calls_leave] at hreturned
        exact hreturned
      · rw [hmade] at hagrees
        exact Thread.dispatch_of_next hagrees

/-- A run goes on after an instruction that goes on. -/
theorem run_within_of_next (hcap : (a.values ++ m.below rest).length ≤ m.dataCapacity)
    (hnext : a.next (m.roomFor rest a) = .ok (some a')) :
    (m.within rest a).run none = ((m.after 1).within rest a').run none := by
  have hturn := turn_within hcap
  rw [hnext] at hturn
  exact Thread.run_of_more hturn

/-- A run ends at an instruction that traps. -/
theorem run_within_of_trap {trap : Trap} (hcap : (a.values ++ m.below rest).length ≤ m.dataCapacity)
    (hnext : a.next (m.roomFor rest a) = .error trap) :
    ∃ t, (m.within rest a).run none = (.error (a.pointer.fault trap), t) := by
  have hturn := turn_within hcap
  rw [hnext] at hturn
  obtain ⟨t, ht⟩ := hturn
  exact ⟨t, Thread.run_of_stop ht⟩

/-- A run ends with the end of the outermost body. -/
theorem run_within_of_end (hcap : (a.values ++ m.below []).length ≤ m.dataCapacity)
    (hnext : a.next (m.roomFor [] a) = .ok none) :
    (m.within [] a).run none = (.ok (), ((m.after 1).leave a []).flatten) := by
  have hturn := turn_within hcap
  rw [hnext] at hturn
  exact Thread.run_of_stop hturn

/-- A call for which there is a frame left succeeds if there is room for its
locals, and is the innermost one then. -/
theorem enter_flatten_eq_ok_iff (hcalls : m.activations.length < m.callCapacity) (functionIndex : UInt32)
    (f : Function) (arguments : List Value) (t : Thread) :
    Exec.enter functionIndex f arguments m.flatten = .ok () t ↔
      (Exec.localsOf f arguments).length ≤ m.dataCapacity - m.values.length ∧
      t = m.within m.activations ⟨.start functionIndex f.body, Exec.localsOf f arguments, []⟩ := by
  rw [enter_flatten, enter, ← Exec.localsOf]
  by_cases hroom : (Exec.localsOf f arguments).length ≤ m.dataCapacity - m.values.length
  · simp only [if_neg (Nat.not_lt_of_le hroom), if_neg (Nat.not_le_of_lt hcalls), hroom, true_and]
    exact ⟨fun h => by cases h; rfl, fun h => by rw [h]; rfl⟩
  · simp only [if_pos (Nat.lt_of_not_le hroom), hroom, false_and, iff_false]
    intro h
    cases h

end SplitThread

end StackVm
