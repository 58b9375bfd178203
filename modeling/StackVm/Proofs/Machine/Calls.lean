import StackVm.Proofs.Machine.Agreement

/-!
# Calls and returns on any thread

What the innermost frame is, and what a call and the end of a body do to a
thread, whatever stands on its stacks:

* `Exec.frame_eq`: the innermost frame is the first one from the top;
* `Exec.enter_eq`: a call succeeds if there is room for its locals and for a
  frame. If it fails, the locals that fit stay on the data stack, and nothing
  else has changed;
* `Exec.enter_outcome`: the same for the items of the stacks from the bottom, and
  which stack overflows;
* `Exec.endBody_eq`: the end of a body takes the locals of the innermost frame
  out of the data stack, provided that they are there.
-/

namespace StackVm

namespace Exec

variable {β : Type}

/-- The innermost frame, if there is one. -/
theorem frame_eq (t : Thread) : frame t =
    match t.calls.toListTopFirst.head? with
    | some f => .ok f t
    | none => .error .stackUnderflow t := by
  obtain ⟨calls, data, current, executed⟩ := t
  cases hframes : calls.toListTopFirst with
  | nil =>
    have hnil : calls.items.size = 0 := by simpa [Stack.toListTopFirst] using hframes
    simp [frame, onCalls, Stack.peek, hnil]
  | cons f below =>
    have hpeek := Stack.peek_ofTopFirst [] f below calls.capacity
    rw [List.length_nil, List.nil_append, ← hframes, calls.ofTopFirst_toListTopFirst] at hpeek
    simp only [frame, onCalls, hpeek, List.head?_cons]

/-! ## Calls -/

/-- The locals of a call: its arguments, then a zero for each declared local. -/
def localsOf (f : Function) (arguments : List Value) : List Value :=
  arguments ++ f.locals.map Value.zero

theorem length_localsOf (f : Function) (arguments : List Value) :
    (localsOf f arguments).length = arguments.length + f.locals.length := by
  rw [localsOf, List.length_append, List.length_map]

/-- The frame of a call with `count` locals that is made on a thread. -/
def frameOn (t : Thread) (count : Nat) : CallFrame where
  caller := if t.calls.isEmpty then none else some t.current
  base := t.data.depth + count
  count := count

/-- The thread with more values on its data stack, the last of them at the
top. -/
def withValues (t : Thread) (values : List Value) : Thread :=
  { t with data := .ofTopFirst (values.reverse ++ t.results) t.data.capacity }

theorem onData_pushAll (values : List Value) (t : Thread) : onData (Stack.pushAll values) t =
    if values.length ≤ t.data.capacity - t.data.depth then .ok () (withValues t values)
    else .error (.stackOverflow t.data.capacity)
      (withValues t (values.take (t.data.capacity - t.data.depth))) := by
  obtain ⟨calls, data, current, executed⟩ := t
  have hpush := Stack.pushAll_ofTopFirst values data.toListTopFirst data.capacity
  rw [data.ofTopFirst_toListTopFirst, data.length_toListTopFirst] at hpush
  simp only [onData, hpush]
  by_cases hroom : values.length ≤ data.capacity - data.depth
  · rw [if_pos hroom, if_pos hroom]
    rfl
  · rw [if_neg hroom, if_neg hroom]
    rfl

theorem onCalls_push (f : CallFrame) (t : Thread) : onCalls (Stack.push f) t =
    if t.calls.depth < t.calls.capacity then
      .ok () { t with calls := .ofTopFirst (f :: t.calls.toListTopFirst) t.calls.capacity }
    else .error (.stackOverflow t.calls.capacity) t := by
  obtain ⟨calls, data, current, executed⟩ := t
  have hpush := Stack.push_ofTopFirst f calls.toListTopFirst calls.capacity
  rw [calls.ofTopFirst_toListTopFirst, calls.length_toListTopFirst] at hpush
  simp only [onCalls, hpush]
  by_cases hroom : calls.depth < calls.capacity
  · rw [if_pos hroom, if_pos hroom]
  · rw [if_neg hroom, if_neg hroom]

/-- A call, for any state of the stacks. -/
theorem enter_eq (functionIndex : UInt32) (f : Function) (arguments : List Value) (t : Thread) :
    enter functionIndex f arguments t =
      let locals := localsOf f arguments
      if locals.length ≤ t.data.capacity - t.data.depth then
        if t.calls.depth < t.calls.capacity then
          .ok () { withValues t locals with
            calls := .ofTopFirst (frameOn t locals.length :: t.calls.toListTopFirst) t.calls.capacity
            current := .start functionIndex f.body }
        else .error (.stackOverflow t.calls.capacity) (withValues t locals)
      else .error (.stackOverflow t.data.capacity)
        (withValues t (locals.take (t.data.capacity - t.data.depth))) := by
  have hpush : ∀ next : Unit → Exec Unit,
      (do
        onData (Stack.pushAll arguments)
        onData (Stack.pushAll (f.locals.map Value.zero)) >>= next) =
        (onData (Stack.pushAll (localsOf f arguments)) >>= next) := by
    intro next
    rw [localsOf, Stack.pushAll_append, onData_bind, bind_assoc]
  rw [enter, hpush, ← length_localsOf]
  generalize localsOf f arguments = locals
  have hvalues := onData_pushAll locals t
  by_cases hroom : locals.length ≤ t.data.capacity - t.data.depth
  · rw [if_pos hroom] at hvalues
    have hframe : (frameOn t locals.length : CallFrame) =
        { caller := if (withValues t locals).calls.isEmpty then none else some (withValues t locals).current
          base := (withValues t locals).data.depth
          count := locals.length } := by
      have hdepth : (withValues t locals).data.depth = t.data.depth + locals.length := by
        simp [withValues, Thread.results, Nat.add_comm]
      rw [hdepth]
      rfl
    have hcalls := onCalls_push (frameOn t locals.length) (withValues t locals)
    rw [bind_of_ok hvalues]
    show (onCalls (Stack.push _) >>= _) (withValues t locals) = _
    rw [← hframe]
    simp only [if_pos hroom]
    by_cases hcall : t.calls.depth < t.calls.capacity
    · rw [if_pos hcall]
      exact bind_of_ok (hcalls.trans (if_pos hcall))
    · rw [if_neg hcall]
      exact bind_of_error (hcalls.trans (if_neg hcall))
  · rw [if_neg hroom] at hvalues
    rw [bind_of_error hvalues]
    exact (if_neg hroom).symm

/-! ## Outcomes of a call -/

theorem withValues_eq (t : Thread) (values : List Value) : withValues t values =
    { t with data := { t.data with items := t.data.items ++ values.toArray } } := by
  simp [withValues, Stack.ofTopFirst, Thread.results, Stack.toListTopFirst]

section

variable {t : Thread} {f : Function} {arguments : List Value}

theorem enter_of_room (hdata : t.data.depth + arguments.length + f.locals.length ≤ t.data.capacity)
    (hcalls : t.calls.depth < t.calls.capacity) (functionIndex : UInt32) :
    enter functionIndex f arguments t = .ok ()
      { calls := { t.calls with
          items := t.calls.items.push (frameOn t (arguments.length + f.locals.length)) }
        data := { t.data with items := t.data.items ++ (localsOf f arguments).toArray }
        current := .start functionIndex f.body
        executed := t.executed } := by
  have hlength := length_localsOf f arguments
  rw [enter_eq]
  simp only [hlength]
  rw [if_pos (by omega), if_pos hcalls, withValues_eq, Stack.ofTopFirst_cons_toListTopFirst]

/-- A call that fails leaves the locals that fit, whichever stack is too small. -/
theorem enter_of_no_room (h : t.data.depth ≤ t.data.capacity)
    (hroom : ¬ (t.data.depth + arguments.length + f.locals.length ≤ t.data.capacity ∧
      t.calls.depth < t.calls.capacity)) (functionIndex : UInt32) :
    enter functionIndex f arguments t =
      .error (.stackOverflow (if t.data.depth + arguments.length + f.locals.length ≤ t.data.capacity
          then t.calls.capacity else t.data.capacity))
        (withValues t ((localsOf f arguments).take (t.data.capacity - t.data.depth))) := by
  have hlength := length_localsOf f arguments
  rw [enter_eq]
  by_cases hdata : t.data.depth + arguments.length + f.locals.length ≤ t.data.capacity
  · have hfits : (localsOf f arguments).length ≤ t.data.capacity - t.data.depth := by omega
    simp only [if_pos hfits, if_pos hdata, if_neg fun hcalls => hroom ⟨hdata, hcalls⟩,
      List.take_of_length_le hfits]
  · have hlong : ¬ (localsOf f arguments).length ≤ t.data.capacity - t.data.depth := by omega
    simp only [if_neg hlong, if_neg hdata]

/-- A call succeeds just if there is room for its locals and for a frame. Its arguments
stand on the data stack then, above them a zero for each declared local, and its frame on
the call stack. If it fails, only the data stack has changed: the locals for which there is
room are on top of it. The overflow is that of the data stack, or of the call stack if the
locals fit. -/
theorem enter_outcome (h : t.data.depth ≤ t.data.capacity) (functionIndex : UInt32) (f : Function)
    (arguments : List Value) :
    let locals := arguments ++ f.locals.map Value.zero
    ((∃ t', enter functionIndex f arguments t = .ok () t') ↔
      t.data.depth + arguments.length + f.locals.length ≤ t.data.capacity ∧
        t.calls.depth < t.calls.capacity) ∧
    (∀ t', enter functionIndex f arguments t = .ok () t' →
      t'.data = { t.data with items := t.data.items ++ locals.toArray } ∧
      t'.calls = { t.calls with
        items := t.calls.items.push {
          caller := if t.calls.isEmpty then none else some t.current
          base := t'.data.depth
          count := arguments.length + f.locals.length } } ∧
      t'.current = .place functionIndex f.body 0 ∧ t'.executed = t.executed) ∧
    ∀ e t', enter functionIndex f arguments t = .error e t' →
      t'.calls = t.calls ∧ t'.current = t.current ∧ t'.executed = t.executed ∧
      t'.data = { t.data with
        items := t.data.items ++ (locals.take (t.data.capacity - t.data.depth)).toArray } ∧
      e = .stackOverflow (if t.data.depth + arguments.length + f.locals.length ≤ t.data.capacity
        then t.calls.capacity else t.data.capacity) := by
  intro locals
  by_cases hroom : t.data.depth + arguments.length + f.locals.length ≤ t.data.capacity ∧
      t.calls.depth < t.calls.capacity
  · rw [enter_of_room hroom.1 hroom.2]
    refine ⟨iff_of_true ⟨_, rfl⟩ hroom, fun t' ht' => ?_, nofun⟩
    cases ht'
    refine ⟨rfl, ?_, rfl, rfl⟩
    have hbase : t.data.depth + (arguments.length + f.locals.length) =
        (t.data.items ++ (localsOf f arguments).toArray).size := by
      rw [Array.size_append, ← length_localsOf]
      rfl
    rw [frameOn, hbase]
    rfl
  · rw [enter_of_no_room h hroom, withValues_eq]
    refine ⟨iff_of_false (fun ⟨_, ht'⟩ => nomatch ht') hroom, nofun, fun e t' ht' => ?_⟩
    cases ht'
    exact ⟨rfl, rfl, rfl, rfl, rfl⟩

/-- A call from within a function: one that fills the data stack, one that lacks room for
the second of its zeros, and one that lacks room for its frame. -/
theorem enter_outcome_nested :
    let f : Function := ⟨[.i32, .i64], [0x0b]⟩
    let caller : Pointer := .place 5 [0x01, 0x0b] 1
    let t (callCapacity : Nat) : Thread := ⟨⟨#[⟨none, 0, 0⟩], callCapacity⟩, ⟨#[.i32 1], 4⟩, caller, 3⟩
    (∃ t', enter 3 f [.i32 7] (t 2) = .ok () t' ∧ t'.data.items = #[.i32 1, .i32 7, .i32 0, .i64 0] ∧
      t'.calls.items = #[⟨none, 0, 0⟩, ⟨some caller, 4, 3⟩] ∧ t'.current = .place 3 [0x0b] 0) ∧
    (∃ t', enter 3 f [.i32 7, .i32 8] (t 2) = .error (.stackOverflow 4) t' ∧
      t'.data.items = #[.i32 1, .i32 7, .i32 8, .i32 0] ∧ t'.calls = (t 2).calls ∧ t'.current = caller) ∧
    ∃ t', enter 3 f [.i32 7] (t 1) = .error (.stackOverflow 1) t' ∧
      t'.data.items = #[.i32 1, .i32 7, .i32 0, .i64 0] ∧ t'.calls = (t 1).calls ∧ t'.current = caller := by
  intro f caller t
  have h : ∀ callCapacity, (t callCapacity).data.depth ≤ (t callCapacity).data.capacity :=
    fun _ => show 1 ≤ 4 by decide
  refine ⟨?_, ?_, ?_⟩
  · obtain ⟨hiff, hok, -⟩ := enter_outcome (h 2) 3 f [.i32 7]
    obtain ⟨t', ht'⟩ := hiff.2 (by decide)
    obtain ⟨hdata, hcalls, hcurrent, -⟩ := hok t' ht'
    rw [hdata] at hcalls
    exact ⟨t', ht', congrArg Stack.items hdata, congrArg Stack.items hcalls, hcurrent⟩
  · obtain ⟨-, -, herror⟩ := enter_outcome (h 2) 3 f [.i32 7, .i32 8]
    obtain ⟨hcalls, hcurrent, -, hdata, -⟩ := herror _ _ rfl
    exact ⟨_, rfl, congrArg Stack.items hdata, hcalls, hcurrent⟩
  · obtain ⟨-, -, herror⟩ := enter_outcome (h 1) 3 f [.i32 7]
    obtain ⟨hcalls, hcurrent, -, hdata, -⟩ := herror _ _ rfl
    exact ⟨_, rfl, congrArg Stack.items hdata, hcalls, hcurrent⟩

end

/-! ## Returns -/

theorem endBody_of_nil {t : Thread} (h : t.calls.toListTopFirst = []) :
    endBody t = .error .stackUnderflow t := by
  obtain ⟨calls, data, current, executed⟩ := t
  have hnil : calls.items = #[] := by simpa [Stack.toListTopFirst] using h
  have hpop : onCalls Stack.pop ⟨calls, data, current, executed⟩ =
      .error .stackUnderflow ⟨calls, data, current, executed⟩ := by
    simp [onCalls, Stack.pop, hnil]
  exact bind_of_error hpop

/-- Locals that are there can be dropped. -/
theorem dropLocals_eq {f : CallFrame} {t : Thread} (hcount : f.count ≤ f.base)
    (hbase : f.base ≤ t.data.depth) :
    ∃ data, Stack.discard (f.base - f.count) f.base t.data = .ok () data ∧
      dropLocals f t = .ok () { t with data := data } ∧ data.capacity = t.data.capacity ∧
      data.depth + f.count = t.data.depth := by
  obtain ⟨calls, data, current, executed⟩ := t
  have hbound : f.base - f.count ≤ f.base ∧ f.base ≤ data.items.size := ⟨Nat.sub_le _ _, hbase⟩
  have hdiscard : Stack.discard (f.base - f.count) f.base data = .ok () { data with
      items := data.items.extract 0 (f.base - f.count) ++ data.items.extract f.base data.items.size } := by
    rw [Stack.discard, if_pos hbound]
  refine ⟨_, hdiscard, ?_, rfl, ?_⟩
  · simp only [dropLocals]
    by_cases hnone : f.base - f.count < f.base
    · rw [if_pos hnone]
      simp only [onData, hdiscard]
    · have hstart : f.base - f.count = f.base := by omega
      have hsame : data.items.extract 0 f.base ++ data.items.extract f.base data.items.size =
          data.items := by
        rw [Array.extract_append_extract, Nat.min_eq_left (Nat.zero_le _), Nat.max_eq_right hbound.2,
          Array.extract_size]
      rw [if_neg hnone, hstart, hsame]
      rfl
  · simp only [Stack.depth, Array.size_append, Array.size_extract] at hbase ⊢
    omega

/-- The end of a body whose locals are there. -/
theorem endBody_eq {t : Thread} {f : CallFrame} {below : List CallFrame}
    (hcalls : t.calls.toListTopFirst = f :: below) (hcount : f.count ≤ f.base)
    (hbase : f.base ≤ t.data.depth) :
    ∃ data, endBody t = .ok .returned
        ⟨.ofTopFirst below t.calls.capacity, data, f.caller.getD t.current, t.executed⟩ ∧
      data.capacity = t.data.capacity ∧ data.depth + f.count = t.data.depth := by
  obtain ⟨calls, data, current, executed⟩ := t
  have hpop : onCalls Stack.pop ⟨calls, data, current, executed⟩ =
      .ok f ⟨.ofTopFirst below calls.capacity, data, current, executed⟩ := by
    have hpop := Stack.pop_ofTopFirst_cons f below calls.capacity
    rw [← hcalls, calls.ofTopFirst_toListTopFirst] at hpop
    simp only [onCalls, hpop]
  obtain ⟨left, -, hdrop, hcap, hdepth⟩ :=
    @dropLocals_eq f ⟨.ofTopFirst below calls.capacity, data, current, executed⟩ hcount hbase
  refine ⟨left, ?_, hcap, hdepth⟩
  rw [endBody, bind_of_ok hpop, bind_of_ok hdrop, resume]
  cases f.caller <;> rfl

end Exec

end StackVm
