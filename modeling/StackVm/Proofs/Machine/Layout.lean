import StackVm.Machine.Run
import StackVm.Proofs.Machine.Calls

/-!
# The layout of calls on the data stack

Whatever a host asks of a thread, be it answered or refused, the locals of the
calls under way stand on the data stack one above the other, without overlap
and below its top (`Thread.layout_of_requests`). Nothing that an instruction
does can reach below the locals of the innermost call, so the end of a body
always finds them, and every local has a place of its own.

* `Exec.Guards`: the actions that leave the call stack alone and keep to the
  operands of the innermost call, whether they succeed or trap. All
  instructions but the end of a body are such (`Opcode.guards_exec`);
* `CallFrame.Nested`, `Thread.LaidOut`: the layout, frame by frame from the
  top, which is the invariant that instructions, calls and runs keep;
* `Thread.Layout`, `Thread.FindsLocals`: the layout frame by frame from the
  bottom, and what it means for the locals of the innermost call.
-/

namespace StackVm

/-- The state that an action leaves, whether it succeeds or traps. -/
def stateAfter {σ β : Type} (action : EStateM Trap σ β) (s : σ) : σ :=
  match action s with
  | .ok _ s' => s'
  | .error _ s' => s'

section

variable {σ β : Type} {action : EStateM Trap σ β} {s s' : σ}

theorem stateAfter_of_ok {b : β} (h : action s = .ok b s') : stateAfter action s = s' := by
  rw [stateAfter, h]

theorem stateAfter_of_error {e : Trap} (h : action s = .error e s') : stateAfter action s = s' := by
  rw [stateAfter, h]

end

namespace Stack

variable {α β γ : Type} {k : Nat}

/-- An action that takes at most `k` items away, and never exceeds the
capacity. -/
def Removes (k : Nat) (action : Action α β) : Prop :=
  ∀ s, s.depth ≤ s.capacity →
    (stateAfter action s).capacity = s.capacity ∧ (stateAfter action s).depth ≤ s.capacity ∧
      s.depth ≤ (stateAfter action s).depth + k

theorem removes_push (a : α) : Removes 0 (push a) := by
  intro s h
  simp only [stateAfter, push]
  by_cases hroom : s.items.size < s.capacity
  · rw [if_pos hroom]
    refine ⟨rfl, ?_, ?_⟩
    · simpa [depth] using Nat.succ_le_of_lt hroom
    · simp [depth]
  · rw [if_neg hroom]
    exact ⟨rfl, h, Nat.le_refl _⟩

theorem removes_pop : Removes 1 (pop : Action α α) := by
  intro s h
  simp only [stateAfter, pop]
  cases s.items.back? with
  | none => exact ⟨rfl, h, Nat.le_succ _⟩
  | some a =>
    rw [depth] at h
    refine ⟨rfl, ?_, ?_⟩
    · simp only [depth, Array.size_pop]
      omega
    · simp only [depth, Array.size_pop]
      omega

theorem removes_peek (i : Nat) : Removes 0 (peek i : Action α α) := by
  intro s h
  simp only [stateAfter, peek]
  by_cases hlt : i < s.items.size
  · rw [dif_pos hlt]
    exact ⟨rfl, h, Nat.le_refl _⟩
  · rw [dif_neg hlt]
    exact ⟨rfl, h, Nat.le_refl _⟩

theorem removes_poke (i : Nat) (a : α) : Removes 0 (poke i a) := by
  intro s h
  simp only [stateAfter, poke]
  by_cases hlt : i < s.items.size
  · rw [if_pos hlt]
    refine ⟨rfl, ?_, ?_⟩
    · simpa [depth] using h
    · simp [depth]
  · rw [if_neg hlt]
    exact ⟨rfl, h, Nat.le_refl _⟩

theorem removes_popI32 : Removes 1 popI32 := by
  intro s h
  have hpop := removes_pop s h
  simp only [stateAfter, popI32, bind, EStateM.bind] at hpop ⊢
  cases hresult : pop s with
  | error e s₁ =>
    rw [hresult] at hpop
    exact hpop
  | ok v s₁ =>
    rw [hresult] at hpop
    cases v <;> exact hpop

end Stack

/-! ## Actions that keep to the operands -/

/-- The thread `t` is what is left of `o`: calls and counts are the same, and
there are `spare` values or more above the locals of the innermost call. -/
structure Thread.Above (t o : Thread) (spare : Nat) : Prop where
  calls_eq : t.calls = o.calls
  executed_eq : t.executed = o.executed
  capacity_eq : t.data.capacity = o.data.capacity
  depth_le : t.data.depth ≤ t.data.capacity
  base_le : ∀ f, t.calls.toListTopFirst.head? = some f → f.base + spare ≤ t.data.depth

namespace Thread.Above

variable {o t : Thread} {m n : Nat}

theorem mono (h : t.Above o n) (hle : m ≤ n) : t.Above o m where
  calls_eq := h.calls_eq
  executed_eq := h.executed_eq
  capacity_eq := h.capacity_eq
  depth_le := h.depth_le
  base_le f hf := by
    have := h.base_le f hf
    omega

/-- Where the pointer stands does not matter. -/
theorem move (h : t.Above o n) (p : Pointer) : Above { t with current := p } o n where
  calls_eq := h.calls_eq
  executed_eq := h.executed_eq
  capacity_eq := h.capacity_eq
  depth_le := h.depth_le
  base_le := h.base_le

end Thread.Above

namespace Exec

variable {α β : Type} {needed spare left : Nat}

/-- An action that needs `needed` values above the locals of the innermost
call, and leaves `left` of them if it succeeds. If it traps, the locals are
still there. -/
def Guards (needed left : Nat) (action : Exec β) : Prop :=
  ∀ o t : Thread, t.Above o needed →
    match action t with
    | .ok _ t' => t'.Above o left
    | .error _ t' => t'.Above o 0

theorem guards_pure (b : β) : Guards left left (pure b) :=
  fun _ _ h => h

theorem guards_throw (e : Trap) : Guards needed left (throw e : Exec β) :=
  fun _ _ h => h.mono (Nat.zero_le _)

theorem guards_bind {action : Exec α} {next : α → Exec β} (h₁ : Guards needed spare action)
    (h₂ : ∀ a, Guards spare left (next a)) : Guards needed left (action >>= next) := by
  intro o t h
  have h₁ := h₁ o t h
  simp only [bind, EStateM.bind]
  cases haction : action t with
  | ok a t₁ =>
    rw [haction] at h₁
    exact h₂ a o t₁ h₁
  | error e t₁ =>
    rw [haction] at h₁
    exact h₁

theorem guards_advance : Guards left left advance :=
  fun _ _ h => h.move _

theorem guards_operand : Guards left left operand := by
  intro o t h
  rw [operand]
  cases Leb128.read t.current.rest with
  | none => exact (h.move _).mono (Nat.zero_le _)
  | some g => exact h.move _

theorem guards_unsignedOperand : Guards left left unsignedOperand :=
  guards_bind guards_operand fun _ => guards_pure _

theorem guards_signedOperand : Guards left left signedOperand :=
  guards_bind guards_operand fun _ => guards_pure _

theorem guards_onData {action : Stack.Action Value β} {k : Nat} (h : Stack.Removes k action) :
    Guards (left + k) left (onData action) := by
  intro o t ht
  obtain ⟨hcap, hle, hdepth⟩ := h t.data ht.depth_le
  have hleft : Thread.Above { t with data := stateAfter action t.data } o left :=
    { calls_eq := ht.calls_eq
      executed_eq := ht.executed_eq
      capacity_eq := hcap.trans ht.capacity_eq
      depth_le := Nat.le_trans hle (Nat.le_of_eq hcap.symm)
      base_le := fun f hf => by
        have := ht.base_le f hf
        show f.base + left ≤ (stateAfter action t.data).depth
        omega }
  simp only [onData, stateAfter] at hleft ⊢
  cases hresult : action t.data with
  | ok b data =>
    rw [hresult] at hleft
    exact hleft
  | error e data =>
    rw [hresult] at hleft
    exact hleft.mono (Nat.zero_le _)

theorem guards_frame : Guards left left frame := by
  intro o t h
  rw [frame_eq]
  cases t.calls.toListTopFirst.head? with
  | none => exact h.mono (Nat.zero_le _)
  | some f => exact h

theorem guards_depth : Guards left left depth :=
  fun _ _ h => h

theorem guards_localIndex (x : UInt32) : Guards left left (localIndex x) := by
  refine guards_bind guards_frame fun f => ?_
  cases f.localSlot? x with
  | none => exact guards_throw _
  | some slot =>
    refine guards_bind guards_depth fun depth => ?_
    split
    · exact guards_pure _
    · exact guards_throw _

/-- Past this check there are as many operands as it asks for. -/
theorem guards_requireOperands {count : Nat} (hleft : left ≤ count) :
    Guards 0 left (requireOperands count) := by
  intro o t h
  simp only [requireOperands, bind, EStateM.bind, frame_eq]
  cases hf : t.calls.toListTopFirst.head? with
  | none => exact h
  | some f =>
    simp only [depth]
    by_cases hlt : t.data.depth < f.base + count
    · rw [if_pos hlt]
      exact h
    · rw [if_neg hlt]
      refine ⟨h.calls_eq, h.executed_eq, h.capacity_eq, h.depth_le, fun g hg => ?_⟩
      cases hf.symm.trans hg
      omega

theorem guards_binary (op : Int32 → Int32 → Int32) : Guards 0 0 (binary op) :=
  guards_bind guards_advance fun _ =>
    guards_bind (guards_requireOperands (Nat.le_refl 2)) fun _ =>
      guards_bind (guards_onData Stack.removes_popI32) fun _ =>
        guards_bind (guards_onData Stack.removes_popI32) fun _ =>
          guards_bind (guards_onData (Stack.removes_push _)) fun _ => guards_pure _

end Exec

open Exec Stack in
/-- Every instruction but the end of a body keeps to the operands of its
call. -/
theorem Opcode.guards_exec {op : Opcode} (h : op ≠ .endBody) : Guards 0 0 op.exec := by
  cases op with
  | unreachable => exact guards_throw _
  | nop => exact guards_bind guards_advance fun _ => guards_pure _
  | endBody => exact absurd rfl h
  | drop =>
    exact guards_bind guards_advance fun _ =>
      guards_bind (guards_requireOperands (Nat.le_refl 1)) fun _ =>
        guards_bind (guards_onData removes_pop) fun _ => guards_pure _
  | localGet =>
    exact guards_bind guards_advance fun _ =>
      guards_bind guards_unsignedOperand fun x =>
        guards_bind (guards_localIndex x) fun i =>
          guards_bind (guards_onData (removes_peek i)) fun v =>
            guards_bind (guards_onData (removes_push v)) fun _ => guards_pure _
  | localSet =>
    exact guards_bind guards_advance fun _ =>
      guards_bind guards_unsignedOperand fun x =>
        guards_bind (guards_requireOperands (Nat.le_refl 1)) fun _ =>
          guards_bind (guards_onData removes_pop) fun v =>
            guards_bind (guards_localIndex x) fun i =>
              guards_bind (guards_onData (removes_poke i v)) fun _ => guards_pure _
  | localTee =>
    exact guards_bind guards_advance fun _ =>
      guards_bind guards_unsignedOperand fun x =>
        guards_bind (guards_requireOperands (Nat.zero_le 1)) fun _ =>
          guards_bind (guards_onData (removes_peek 0)) fun v =>
            guards_bind (guards_localIndex x) fun i =>
              guards_bind (guards_onData (removes_poke i v)) fun _ => guards_pure _
  | i32Const =>
    exact guards_bind guards_advance fun _ =>
      guards_bind guards_signedOperand fun _ =>
        guards_bind (guards_onData (removes_push _)) fun _ => guards_pure _
  | i32Add => exact guards_binary _
  | i32Sub => exact guards_binary _
  | i32Mul => exact guards_binary _

/-! ## The layout, from the top -/

/-- Frames, the innermost first, whose locals stand one below the other and
below `depth`. Only the outermost call is the host's. -/
inductive CallFrame.Nested : List CallFrame → Nat → Prop
  | nil (depth : Nat) : Nested [] depth
  | cons {f : CallFrame} {below : List CallFrame} {depth : Nat} :
    f.count ≤ f.base → f.base ≤ depth → (f.caller = none ↔ below = []) →
      Nested below (f.base - f.count) → Nested (f :: below) depth

open CallFrame (Nested)

namespace CallFrame.Nested

variable {frames : List CallFrame} {depth depth' : Nat}

theorem base_le (h : Nested frames depth) {f : CallFrame} (hf : frames.head? = some f) : f.base ≤ depth := by
  cases h with
  | nil => cases hf
  | cons _ hbase _ _ =>
    cases hf
    exact hbase

theorem count_le (h : Nested frames depth) {f : CallFrame} (hf : frames.head? = some f) :
    f.count ≤ f.base := by
  cases h with
  | nil => cases hf
  | cons hcount _ _ _ =>
    cases hf
    exact hcount

/-- Only the innermost frame is next to the top. -/
theorem of_head (h : Nested frames depth) (hhead : ∀ f, frames.head? = some f → f.base ≤ depth') :
    Nested frames depth' := by
  cases h with
  | nil => exact .nil _
  | cons hcount _ hcaller hbelow => exact .cons hcount (hhead _ rfl) hcaller hbelow

theorem mono (h : Nested frames depth) (hle : depth ≤ depth') : Nested frames depth' :=
  h.of_head fun _ hf => Nat.le_trans (h.base_le hf) hle

end CallFrame.Nested

namespace Thread

/-- The stacks respect their capacities, and the locals of the calls under way
are all on the data stack. -/
structure LaidOut (t : Thread) : Prop where
  nested : Nested t.calls.toListTopFirst t.data.depth
  depth_le : t.data.depth ≤ t.data.capacity
  calls_le : t.calls.depth ≤ t.calls.capacity

/-- The thread `t'`, which `t` has become, is laid out within the same
capacities. -/
structure Keeps (t t' : Thread) : Prop where
  laidOut : t'.LaidOut
  dataCapacity_eq : t'.data.capacity = t.data.capacity
  callCapacity_eq : t'.calls.capacity = t.calls.capacity

variable {t t' t'' : Thread}

theorem Keeps.trans (h : t.Keeps t') (h' : t'.Keeps t'') : t.Keeps t'' where
  laidOut := h'.laidOut
  dataCapacity_eq := h'.dataCapacity_eq.trans h.dataCapacity_eq
  callCapacity_eq := h'.callCapacity_eq.trans h.callCapacity_eq

theorem laidOut_new (dataCapacity callCapacity : Nat) : (new dataCapacity callCapacity).LaidOut where
  nested := .nil _
  depth_le := Nat.zero_le _
  calls_le := Nat.zero_le _

namespace LaidOut

theorem refl (h : t.LaidOut) : t.Keeps t :=
  ⟨h, rfl, rfl⟩

theorem above (h : t.LaidOut) : t.Above t 0 where
  calls_eq := rfl
  executed_eq := rfl
  capacity_eq := rfl
  depth_le := h.depth_le
  base_le _ hf := h.nested.base_le hf

theorem keeps_of_above (h : t.LaidOut) (h' : t'.Above t 0) : t.Keeps t' where
  laidOut :=
    { nested := (h'.calls_eq ▸ h.nested : Nested t'.calls.toListTopFirst t.data.depth).of_head h'.base_le
      depth_le := h'.depth_le
      calls_le := h'.calls_eq ▸ h.calls_le }
  dataCapacity_eq := h'.capacity_eq
  callCapacity_eq := congrArg Stack.capacity h'.calls_eq

/-! ## Instructions -/

theorem above_exec (h : t.LaidOut) {op : Opcode} (hop : op ≠ .endBody) :
    (stateAfter op.exec t).Above t 0 := by
  have hguards := Opcode.guards_exec hop t t h.above
  cases hexec : op.exec t with
  | ok progress t' =>
    rw [hexec] at hguards
    rw [stateAfter_of_ok hexec]
    exact hguards
  | error trap t' =>
    rw [hexec] at hguards
    rw [stateAfter_of_error hexec]
    exact hguards

/-- The end of a body, if there is one to end, succeeds. -/
theorem endBody (h : t.LaidOut) :
    t.calls.toListTopFirst = [] ∧ Exec.endBody t = .error .stackUnderflow t ∨
      ∃ t', Exec.endBody t = .ok .returned t' ∧ t.Keeps t' ∧ t'.executed = t.executed := by
  have hnested := h.nested
  cases hframes : t.calls.toListTopFirst with
  | nil => exact .inl ⟨rfl, Exec.endBody_of_nil hframes⟩
  | cons f below =>
    rw [hframes] at hnested
    cases hnested with
    | cons hcount hbase _ hbelow =>
      obtain ⟨data, hend, hcap, hdepth⟩ := Exec.endBody_eq hframes hcount hbase
      have hcalls : below.length + 1 = t.calls.depth := by
        rw [← t.calls.length_toListTopFirst, hframes, List.length_cons]
      have := h.depth_le
      have := h.calls_le
      refine .inr ⟨_, hend, ⟨⟨?_, ?_, ?_⟩, hcap, rfl⟩, rfl⟩
      · rw [Stack.toListTopFirst_ofTopFirst]
        exact hbelow.mono (show f.base - f.count ≤ data.depth by omega)
      · show data.depth ≤ data.capacity
        omega
      · rw [Stack.depth_ofTopFirst]
        show below.length ≤ t.calls.capacity
        omega

theorem keeps_exec (h : t.LaidOut) (op : Opcode) : t.Keeps (stateAfter op.exec t) := by
  by_cases hop : op = .endBody
  · subst hop
    rcases h.endBody with ⟨-, hend⟩ | ⟨t', hend, hkeeps, -⟩
    · rw [Opcode.exec, stateAfter_of_error hend]
      exact h.refl
    · rw [Opcode.exec, stateAfter_of_ok hend]
      exact hkeeps
  · exact h.keeps_of_above (h.above_exec hop)

/-- Instructions are counted by the loop, and not by what they do. -/
theorem executed_exec (h : t.LaidOut) (op : Opcode) : (stateAfter op.exec t).executed = t.executed := by
  by_cases hop : op = .endBody
  · subst hop
    rcases h.endBody with ⟨-, hend⟩ | ⟨t', hend, -, hexecuted⟩
    · rw [Opcode.exec, stateAfter_of_error hend]
    · rw [Opcode.exec, stateAfter_of_ok hend]
      exact hexecuted
  · exact (h.above_exec hop).executed_eq

/-! ## Calls and runs -/

theorem withValues (h : t.LaidOut) {values : List Value}
    (hroom : values.length ≤ t.data.capacity - t.data.depth) : t.Keeps (Exec.withValues t values) := by
  have hle := h.depth_le
  have hdepth : (Exec.withValues t values).data.depth = t.data.depth + values.length := by
    simp [Exec.withValues, Thread.results, Nat.add_comm]
  refine ⟨⟨?_, ?_, h.calls_le⟩, rfl, rfl⟩
  · exact h.nested.mono (show t.data.depth ≤ (Exec.withValues t values).data.depth by omega)
  · show (Exec.withValues t values).data.depth ≤ t.data.capacity
    omega

/-- A call puts a frame above all others, or fails and leaves values. -/
theorem keeps_enter (h : t.LaidOut) (functionIndex : UInt32) (f : Function) (arguments : List Value) :
    t.Keeps (stateAfter (Exec.enter functionIndex f arguments) t) := by
  rw [stateAfter, Exec.enter_eq]
  generalize Exec.localsOf f arguments = locals
  by_cases hroom : locals.length ≤ t.data.capacity - t.data.depth
  · simp only [if_pos hroom]
    have hvalues := h.withValues hroom
    by_cases hcall : t.calls.depth < t.calls.capacity
    · simp only [if_pos hcall]
      refine ⟨⟨?_, hvalues.laidOut.depth_le, ?_⟩, rfl, rfl⟩
      · rw [Stack.toListTopFirst_ofTopFirst]
        refine .cons (Nat.le_add_left _ _) ?_ ?_ ?_
        · simp [Exec.frameOn, Exec.withValues, Thread.results, Nat.add_comm]
        · simp [Exec.frameOn, Stack.isEmpty, Stack.toListTopFirst]
        · simpa [Exec.frameOn] using h.nested
      · simpa using Nat.succ_le_of_lt hcall
    · simp only [if_neg hcall]
      exact hvalues
  · simp only [if_neg hroom]
    exact h.withValues (by rw [List.length_take]; omega)

end LaidOut

end Thread

/-- The thread that a turn leaves. -/
def Turn.thread : Turn → Thread
  | more t => t
  | stop _ t => t

namespace Thread

variable {t : Thread}

theorem thread_dispatch (t : Thread) (op : Opcode) :
    (t.dispatch op).thread = stateAfter op.exec { t with executed := t.executed + 1 } := by
  simp only [dispatch]
  split
  · next h => rw [stateAfter_of_ok h, Turn.thread]
  · next h =>
    rw [stateAfter_of_ok h]
    split <;> rfl
  · next h => rw [stateAfter_of_error h, Turn.thread]

theorem LaidOut.count (h : t.LaidOut) : LaidOut { t with executed := t.executed + 1 } :=
  ⟨h.nested, h.depth_le, h.calls_le⟩

theorem LaidOut.keeps_turn (h : t.LaidOut) (budget : Option Nat) : t.Keeps (t.turn budget).thread := by
  rw [turn]
  cases t.fetch budget with
  | error trap => exact h.refl
  | ok op =>
    show t.Keeps (t.dispatch op).thread
    rw [thread_dispatch]
    have hkeeps := h.count.keeps_exec op
    exact ⟨hkeeps.laidOut, hkeeps.dataCapacity_eq, hkeeps.callCapacity_eq⟩

/-- A turn counts the instruction that it fetches. -/
theorem LaidOut.executed_turn (h : t.LaidOut) (budget : Option Nat) :
    (t.turn budget).thread.executed = t.executed + (t.fetch budget).toOption.toList.length := by
  rw [turn]
  cases t.fetch budget with
  | error trap => rfl
  | ok op =>
    show (t.dispatch op).thread.executed = t.executed + 1
    rw [thread_dispatch, h.count.executed_exec]

theorem LaidOut.keeps_of_more {budget : Option Nat} {t' : Thread} (h : t.LaidOut)
    (hturn : t.turn budget = .more t') : t.Keeps t' := by
  have hkeeps := h.keeps_turn budget
  rw [hturn] at hkeeps
  exact hkeeps

theorem LaidOut.executed_of_more {budget : Option Nat} {t' : Thread} (h : t.LaidOut)
    (hturn : t.turn budget = .more t') : t'.executed = t.executed + 1 := by
  have hexecuted := h.executed_turn budget
  cases hfetch : t.fetch budget with
  | error trap =>
    rw [turn, hfetch] at hturn
    cases hturn
  | ok op =>
    rw [hturn, hfetch] at hexecuted
    exact hexecuted

theorem LaidOut.keeps_run (h : t.LaidOut) (budget : Option Nat) : t.Keeps (t.run budget).2 := by
  induction t using Thread.run.induct budget with
  | case1 t t' hturn ih =>
    have hkeeps := h.keeps_turn budget
    rw [run, hturn]
    rw [hturn] at hkeeps
    exact hkeeps.trans (ih hkeeps.laidOut)
  | case2 t outcome t' hturn =>
    have hkeeps := h.keeps_turn budget
    rw [run, hturn]
    rw [hturn] at hkeeps
    exact hkeeps

end Thread

/-! ## Requests -/

/-- What a host can ask of a thread. -/
inductive Request
  | enter (functionIndex : UInt32) (f : Function) (arguments : List Value)
  | run (budget : Option Nat)
  /-- One instruction, whatever the pointer stands at. -/
  | exec (op : Opcode)

namespace Thread

/-- The thread after a request, whether it succeeds or fails. -/
def serve (t : Thread) : Request → Thread
  | .enter functionIndex f arguments => stateAfter (Exec.enter functionIndex f arguments) t
  | .run budget => (t.run budget).2
  | .exec op => stateAfter op.exec t

variable {t : Thread}

theorem LaidOut.keeps_serve (h : t.LaidOut) (request : Request) : t.Keeps (t.serve request) := by
  cases request with
  | enter functionIndex f arguments => exact h.keeps_enter functionIndex f arguments
  | run budget => exact h.keeps_run budget
  | exec op => exact h.keeps_exec op

theorem LaidOut.keeps_requests (h : t.LaidOut) (requests : List Request) :
    t.Keeps (requests.foldl serve t) := by
  induction requests generalizing t with
  | nil => exact h.refl
  | cons request requests ih =>
    have hkeeps := h.keeps_serve request
    exact hkeeps.trans (ih hkeeps.laidOut)

end Thread

/-! ## The layout, from the bottom -/

/-- Frames, counted from the outermost: each has room for its locals, above
those of the frame before it. -/
theorem CallFrame.Nested.getElem?_reverse {frames : List CallFrame} {depth : Nat} (h : Nested frames depth)
    {i : Nat} {f : CallFrame} (hf : frames.reverse[i]? = some f) :
    f.count ≤ f.base ∧ (f.caller = none ↔ i = 0) ∧
      ∀ g, frames.reverse[i + 1]? = some g → f.base ≤ g.base - g.count := by
  induction h generalizing i with
  | nil => cases hf
  | @cons top below depth hcount hbase hcaller hbelow ih =>
    rw [List.reverse_cons] at hf ⊢
    have hlen : below.reverse.length = below.length := List.length_reverse
    rcases Nat.lt_trichotomy i below.length with hlt | rfl | hgt
    · rw [List.getElem?_append_left (by omega)] at hf
      obtain ⟨hcount', hcaller', hnext⟩ := ih hf
      refine ⟨hcount', hcaller', fun g hg => ?_⟩
      by_cases hlast : i + 1 < below.length
      · rw [List.getElem?_append_left (by omega)] at hg
        exact hnext g hg
      · -- `f` is the innermost of the frames below the top one
        have hi : i + 1 = below.reverse.length := by omega
        rw [hi, List.getElem?_append_right (Nat.le_refl _), Nat.sub_self] at hg
        cases hg
        refine hbelow.base_le ?_
        rw [← hf, ← List.getLast?_reverse, List.getLast?_eq_getElem?, ← hi, Nat.add_sub_cancel]
    · rw [List.getElem?_append_right (by omega), hlen, Nat.sub_self] at hf
      cases hf
      refine ⟨hcount, ?_, fun g hg => ?_⟩
      · rw [hcaller, List.length_eq_zero_iff]
      · rw [List.getElem?_eq_none (by simp)] at hg
        cases hg
    · rw [List.getElem?_eq_none (by simp; omega)] at hf
      cases hf

namespace Thread

/-- The calls under way, counted from the outermost, and where their locals
stand on the data stack. -/
structure Layout (t : Thread) (dataCapacity callCapacity : Nat) : Prop where
  count_le_base : ∀ (i : Nat) f, t.calls.items[i]? = some f → f.count ≤ f.base
  base_le_start : ∀ (i : Nat) f g, t.calls.items[i]? = some f → t.calls.items[i + 1]? = some g →
    f.base ≤ g.base - g.count
  base_le_depth : ∀ f, t.calls.items.back? = some f → f.base ≤ t.data.depth
  depth_le : t.data.depth ≤ dataCapacity
  calls_le : t.calls.depth ≤ callCapacity
  caller_eq_none_iff : ∀ (i : Nat) f, t.calls.items[i]? = some f → (f.caller = none ↔ i = 0)

/-- What instructions can rely on: the end of a body finds the locals that it
drops, and just the locals that there are have places, each its own one. -/
structure FindsLocals (t : Thread) : Prop where
  discard_ok : ∀ f, t.calls.items.back? = some f → f.base - f.count + f.count = f.base ∧
    ∃ data, Stack.discard (f.base - f.count) f.base t.data = .ok () data
  endBody_ok : ∀ f, t.calls.items.back? = some f → ∃ t', Exec.endBody t = .ok .returned t'
  localIndex_ok_iff : ∀ x, (∃ k t', Exec.localIndex x t = .ok k t') ↔
    ∃ f, t.calls.items.back? = some f ∧ x.toNat < f.count
  /-- A place `k` below the top is one of the frame's slots. -/
  slot_mem : ∀ f x k t', t.calls.items.back? = some f → Exec.localIndex x t = .ok k t' →
    ∃ slot, slot + k + 1 = t.data.depth ∧ f.base - f.count ≤ slot ∧ slot < f.base
  localIndex_inj : ∀ x y k t₁ t₂, Exec.localIndex x t = .ok k t₁ → Exec.localIndex y t = .ok k t₂ → x = y

variable {t : Thread}

theorem LaidOut.layout (h : t.LaidOut) : t.Layout t.data.capacity t.calls.capacity := by
  have hitems : ∀ i : Nat, t.calls.items[i]? = t.calls.toListTopFirst.reverse[i]? := by
    intro i
    rw [Stack.toListTopFirst, List.reverse_reverse, Array.getElem?_toList]
  have hframe : ∀ (i : Nat) f, t.calls.items[i]? = some f → _ := fun i f hf =>
    h.nested.getElem?_reverse (hitems i ▸ hf)
  exact {
    count_le_base := fun i f hf => (hframe i f hf).1
    base_le_start := fun i f g hf hg => (hframe i f hf).2.2 g (hitems (i + 1) ▸ hg)
    base_le_depth := fun f hf => h.nested.base_le (t.calls.head?_toListTopFirst ▸ hf)
    depth_le := h.depth_le
    calls_le := h.calls_le
    caller_eq_none_iff := fun i f hf => (hframe i f hf).2.1 }

/-- The place of a local: local `x` of the innermost frame is `x` above the
first one. -/
theorem LaidOut.localIndex_eq (h : t.LaidOut) {f : CallFrame}
    (hf : t.calls.toListTopFirst.head? = some f) (x : UInt32) : Exec.localIndex x t =
      if x.toNat < f.count then .ok (t.data.depth - (f.base - f.count + x.toNat + 1)) t
      else .error .stackUnderflow t := by
  have hcount := h.nested.count_le hf
  have hbase := h.nested.base_le hf
  have hframe : Exec.frame t = .ok f t := by rw [Exec.frame_eq, hf]
  rw [Exec.localIndex, Exec.bind_of_ok hframe, CallFrame.localSlot?]
  by_cases hx : x.toNat < f.count
  · have hslot : f.base + x.toNat - f.count = f.base - f.count + x.toNat := by omega
    rw [if_neg (by omega), if_pos (by omega), hslot, if_pos hx]
    show (if f.base - f.count + x.toNat + 1 ≤ t.data.depth then pure _ else throw _ : Exec Nat) t = _
    rw [if_pos (by omega)]
    rfl
  · rw [if_pos (by omega), if_neg hx]
    rfl

theorem LaidOut.findsLocals (h : t.LaidOut) : t.FindsLocals := by
  have hhead := t.calls.head?_toListTopFirst
  have hplace : ∀ f x k t', t.calls.items.back? = some f → Exec.localIndex x t = .ok k t' →
      x.toNat < f.count ∧ k = t.data.depth - (f.base - f.count + x.toNat + 1) := by
    intro f x k t' hf hk
    rw [h.localIndex_eq (hhead.trans hf) x] at hk
    split at hk <;> cases hk
    exact ⟨‹_›, rfl⟩
  have hnone : ∀ x k t', t.calls.items.back? = none → Exec.localIndex x t ≠ .ok k t' := by
    intro x k t' hf
    have hframe : Exec.frame t = .error .stackUnderflow t := by rw [Exec.frame_eq, hhead, hf]
    rw [Exec.localIndex, Exec.bind_of_error hframe]
    intro h
    cases h
  constructor
  case discard_ok =>
    intro f hf
    have hcount := h.nested.count_le (hhead.trans hf)
    obtain ⟨data, hdiscard, -⟩ := Exec.dropLocals_eq hcount (h.nested.base_le (hhead.trans hf))
    exact ⟨Nat.sub_add_cancel hcount, data, hdiscard⟩
  case endBody_ok =>
    intro f hf
    rcases h.endBody with ⟨hnil, -⟩ | ⟨t', hend, -⟩
    · rw [← hhead, hnil] at hf
      cases hf
    · exact ⟨t', hend⟩
  case localIndex_ok_iff =>
    intro x
    constructor
    · rintro ⟨k, t', hk⟩
      cases hf : t.calls.items.back? with
      | none => exact absurd hk (hnone x k t' hf)
      | some f => exact ⟨f, rfl, (hplace f x k t' hf hk).1⟩
    · rintro ⟨f, hf, hx⟩
      exact ⟨_, t, (h.localIndex_eq (hhead.trans hf) x).trans (if_pos hx)⟩
  case slot_mem =>
    intro f x k t' hf hk
    have hcount := h.nested.count_le (hhead.trans hf)
    have hbase := h.nested.base_le (hhead.trans hf)
    obtain ⟨hx, rfl⟩ := hplace f x k t' hf hk
    exact ⟨f.base - f.count + x.toNat, by omega, by omega, by omega⟩
  case localIndex_inj =>
    intro x y k t₁ t₂ hx hy
    cases hf : t.calls.items.back? with
    | none => exact absurd hx (hnone x k t₁ hf)
    | some f =>
      have hcount := h.nested.count_le (hhead.trans hf)
      have hbase := h.nested.base_le (hhead.trans hf)
      obtain ⟨hxlt, hxk⟩ := hplace f x k t₁ hf hx
      obtain ⟨hylt, hyk⟩ := hplace f y k t₂ hf hy
      refine UInt32.toNat_inj.1 ?_
      omega

/-- After any requests, answered or refused, the calls under way are laid out
on the data stack, within the capacities that the thread started with, and
instructions find their locals. -/
theorem layout_of_requests (dataCapacity callCapacity : Nat) (requests : List Request) :
    (requests.foldl serve (new dataCapacity callCapacity)).Layout dataCapacity callCapacity ∧
      (requests.foldl serve (new dataCapacity callCapacity)).FindsLocals := by
  have hkeeps := (laidOut_new dataCapacity callCapacity).keeps_requests requests
  have hlayout := hkeeps.laidOut.layout
  rw [hkeeps.dataCapacity_eq, hkeeps.callCapacity_eq] at hlayout
  exact ⟨hlayout, hkeeps.laidOut.findsLocals⟩

end Thread

end StackVm
