import StackVm.Proofs.Machine.Calls

/-!
# Threads refine threads with locals apart

Whatever a host does to a thread, calls that fail included, the thread is a
machine with locals apart from operands, laid out on shared stacks, and the
two return, go on and fault together (`Thread.refines_splitThread`):

* `SplitThread.turn_refines_step`: one turn of the loop is one step;
* `SplitThread.enter_flatten`: a call is the same call on both sides;
* `SplitThread.Steady` is the invariant that both need: values do not exceed
  the capacity, and a machine without calls has nothing to execute.
-/

namespace StackVm

/-! ## Steps -/

namespace Thread

variable {t t' : Thread} {op : Opcode}

theorem dispatch_of_next (h : op.exec { t with executed := t.executed + 1 } = .ok .next t') :
    t.dispatch op = .more t' := by
  simp only [dispatch, h]

theorem dispatch_of_returned (h : op.exec { t with executed := t.executed + 1 } = .ok .returned t') :
    t.dispatch op = if t'.calls.isEmpty then .stop (.ok ()) t' else .more t' := by
  simp only [dispatch, h]

theorem dispatch_of_error {trap : Trap}
    (h : op.exec { t with executed := t.executed + 1 } = .error trap t') :
    t.dispatch op = .stop (.error (t.current.fault trap)) t' := by
  simp only [dispatch, h]

end Thread

namespace SplitThread

/-- What one turn of a thread comes to, put by what one step comes to. -/
inductive Refines : Turn → Outcome → Prop
  | more (m : SplitThread) : Refines (.more m.flatten) (.more m)
  | returned (m : SplitThread) : Refines (.stop (.ok ()) m.flatten) (.returned m)
  | faulted (f : Fault) (t : Thread) : Refines (.stop (.error f) t) (.faulted f)

/-- What holds of all machines that a host can bring about. -/
structure Steady (m : SplitThread) : Prop where
  values_le : m.values.length ≤ m.dataCapacity
  /-- Without a call, there is nothing to execute but the end of a body. -/
  idle_endBody : ∀ b, m.idle.current? = some b → Opcode.ofByte? b = some .endBody

theorem isEmpty_calls_leave (m : SplitThread) (a : Activation) (rest : List Activation) :
    (m.leave a rest).flatten.calls.isEmpty = rest.isEmpty := by
  rw [leave, flatten_give]
  cases rest with
  | nil => rfl
  | cons b rest => simp [flatten, Activation.frames]

theorem dispatch_refines {m : SplitThread} {rest : List Activation} {a : Activation} {t : Thread}
    (hcap : (a.values ++ m.below rest).length ≤ m.dataCapacity)
    (ht : { t with executed := t.executed + 1 } = m.within rest a) (op : Opcode) :
    Refines (t.dispatch op)
      (m.conclude a rest (a.exec (SplitThread.room { m with activations := a :: rest }) op)) := by
  have hagrees := agrees_exec hcap op
  have hpointer : t.current = a.pointer := congrArg Thread.current ht
  rw [← ht] at hagrees
  rcases hmade : a.exec (SplitThread.room { m with activations := a :: rest }) op with trap | _ | a'
  · rw [hmade] at hagrees
    obtain ⟨t', ht'⟩ := hagrees
    rw [Thread.dispatch_of_error ht', hpointer]
    exact .faulted _ _
  · rw [hmade] at hagrees
    rw [Thread.dispatch_of_returned hagrees, isEmpty_calls_leave, conclude]
    by_cases hrest : rest.isEmpty
    · rw [if_pos hrest, if_pos hrest]
      exact .returned _
    · rw [if_neg hrest, if_neg hrest]
      exact .more _
  · rw [hmade] at hagrees
    rw [Thread.dispatch_of_next hagrees]
    exact .more _

theorem turn_refines_step {m : SplitThread} (h : m.Steady) (budget : Option Nat) :
    Refines (m.flatten.turn budget) (m.step budget) := by
  have hcurrent : m.flatten.current = m.current := rfl
  have hexecuted : m.flatten.executed = m.executed := rfl
  simp only [Thread.turn, Thread.fetch, step, hcurrent, hexecuted]
  by_cases hbudget : budget.any (· ≤ m.executed)
  · rw [if_pos hbudget, if_pos hbudget]
    exact .faulted _ _
  rw [if_neg hbudget, if_neg hbudget]
  cases hbyte : m.current.current? with
  | none => exact .faulted _ _
  | some b =>
    cases hop : Opcode.ofByte? b with
    | none =>
      simp only [hop]
      exact .faulted _ _
    | some op =>
      simp only [hop]
      obtain ⟨_ | ⟨a, rest⟩, host, idle, executed, dataCapacity, callCapacity⟩ := m
      · -- without a call, the pointer is at the end of a body
        have hend : op = .endBody := Option.some.inj (hop.symm.trans (h.idle_endBody b hbyte))
        rw [hend]
        exact .faulted _ _
      · have hcap := h.values_le
        rw [values, List.flatMap_cons, List.append_assoc] at hcap
        -- the instruction is counted before it is executed
        exact @dispatch_refines ⟨a :: rest, host, idle, executed + 1, dataCapacity, callCapacity⟩
          rest a _ hcap rfl op

end SplitThread

/-! ## The invariant -/

namespace Activation

theorem length_values (a : Activation) : a.values.length = a.operands.length + a.locals.length := by
  rw [values, List.length_append, List.length_reverse]

/-- An activation is left, with one value more than `a` at most, and only if
there is room for it. -/
def Bounded (room : Except Trap Unit) (a : Activation) (made : Except Trap (Option Activation)) : Prop :=
  ∀ left, made = .ok left → ∃ a', left = some a' ∧
    (a'.values.length ≤ a.values.length ∨ room = .ok () ∧ a'.values.length = a.values.length + 1)

variable {room : Except Trap Unit} {a : Activation}

theorem bounded_throw (trap : Trap) : Bounded room a (throw trap) := by
  intro left h
  cases h

theorem bounded_of_le {a' : Activation} (h : a'.values.length ≤ a.values.length) :
    Bounded room a (.ok (some a')) := by
  intro left hleft
  cases hleft
  exact ⟨a', rfl, .inl h⟩

theorem bounded_immediate {next : Leb128.Groups × Activation → Except Trap (Option Activation)}
    (h : ∀ g a₁, a₁.locals = a.locals → a₁.operands = a.operands → Bounded room a (next (g, a₁))) :
    Bounded room a (a.immediate >>= next) := by
  rw [immediate]
  split
  · exact h _ _ rfl rfl
  · exact bounded_throw _

theorem bounded_push {a₁ : Activation} (hlocals : a₁.locals = a.locals)
    (hoperands : a₁.operands = a.operands) (v : Value) :
    Bounded room a (do room; return some { a₁ with operands := v :: a₁.operands }) := by
  cases room with
  | error trap => exact bounded_throw trap
  | ok =>
    intro left h
    cases h
    refine ⟨_, rfl, .inr ⟨rfl, ?_⟩⟩
    simp only [length_values, hlocals, hoperands, List.length_cons]
    omega

theorem bounded_binary (op : Int32 → Int32 → Int32) : Bounded room a (some <$> a.binary op) := by
  rw [binary]
  split
  · next v₂ v₁ operands hoperands =>
    cases number v₂ with
    | error trap => exact bounded_throw trap
    | ok n₂ =>
      cases number v₁ with
      | error trap => exact bounded_throw trap
      | ok n₁ =>
        refine bounded_of_le ?_
        simp only [length_values, hoperands, List.length_cons]
        show operands.length + 1 + a.locals.length ≤ _
        omega
  · exact bounded_throw _

/-- The bound of all instructions but the end of a body. -/
theorem bounded_exec {op : Opcode} (hop : op ≠ .endBody) : Bounded room a (a.exec room op) := by
  cases op with
  | unreachable => exact bounded_throw _
  | nop => exact bounded_of_le (Nat.le_refl _)
  | endBody => exact absurd rfl hop
  | drop =>
    simp only [exec]
    split
    · exact bounded_throw _
    · next operands hoperands =>
      refine bounded_of_le ?_
      simp only [length_values, hoperands, List.length_cons]
      show operands.length + a.locals.length ≤ _
      omega
  | localGet =>
    refine bounded_immediate fun g a₁ hlocals hoperands => ?_
    simp only
    split
    · exact bounded_throw _
    · exact bounded_push hlocals hoperands _
  | localSet =>
    refine bounded_immediate fun g a₁ hlocals hoperands => ?_
    simp only
    split
    · exact bounded_throw _
    · next v operands hv =>
      split
      · refine bounded_of_le ?_
        simp only [length_values, List.length_set, hlocals, ← hoperands, hv, List.length_cons]
        omega
      · exact bounded_throw _
  | localTee =>
    refine bounded_immediate fun g a₁ hlocals hoperands => ?_
    simp only
    split
    · exact bounded_throw _
    · split
      · refine bounded_of_le ?_
        simp only [length_values, List.length_set, hlocals, hoperands]
        exact Nat.le_refl _
      · exact bounded_throw _
  | i32Const => exact bounded_immediate fun g a₁ hlocals hoperands => bounded_push hlocals hoperands _
  | i32Add => exact bounded_binary _
  | i32Sub => exact bounded_binary _
  | i32Mul => exact bounded_binary _

end Activation

namespace SplitThread

theorem dataCapacity_give (m : SplitThread) (operands : List Value) :
    (m.give operands).dataCapacity = m.dataCapacity := by
  rw [give]
  split <;> rfl

theorem idle_give (m : SplitThread) (operands : List Value) : (m.give operands).idle = m.idle := by
  rw [give]
  split <;> rfl

theorem steady_give {m : SplitThread} {operands : List Value}
    (hle : operands.length + m.values.length ≤ m.dataCapacity)
    (hidle : ∀ b, m.idle.current? = some b → Opcode.ofByte? b = some .endBody) :
    (m.give operands).Steady where
  values_le := by rw [values_give, dataCapacity_give, List.length_append]; exact hle
  idle_endBody := by rw [idle_give]; exact hidle

theorem steady_new (dataCapacity callCapacity : Nat) : (new dataCapacity callCapacity).Steady where
  values_le := Nat.zero_le _
  idle_endBody := nofun

theorem Steady.enter {m : SplitThread} (h : m.Steady) (functionIndex : UInt32) (f : Function)
    (arguments : List Value) : (m.enter functionIndex f arguments).2.Steady := by
  have hle := h.values_le
  simp only [SplitThread.enter]
  generalize arguments ++ f.locals.map Value.zero = locals
  split
  · refine steady_give ?_ h.idle_endBody
    rw [List.length_reverse, List.length_take]
    omega
  · split
    · refine steady_give ?_ h.idle_endBody
      rw [List.length_reverse]
      omega
    · refine ⟨?_, h.idle_endBody⟩
      show (locals.reverse ++ m.activations.flatMap Activation.values ++ m.host).length ≤ m.dataCapacity
      rw [List.append_assoc, List.length_append, List.length_reverse]
      show locals.length + m.values.length ≤ m.dataCapacity
      omega

theorem length_values_of_activations {m : SplitThread} {a : Activation} {rest : List Activation}
    (hm : m.activations = a :: rest) : m.values.length = a.values.length + (m.below rest).length := by
  rw [values, hm, List.flatMap_cons, List.append_assoc, List.length_append]
  rfl

theorem Steady.leave {m : SplitThread} (h : m.Steady) {a : Activation} {rest : List Activation}
    (hm : m.activations = a :: rest)
    (hend : ∀ b, a.pointer.current? = some b → Opcode.ofByte? b = some .endBody) :
    (m.leave a rest).Steady := by
  have hle := h.values_le
  rw [length_values_of_activations hm, Activation.length_values] at hle
  refine steady_give ?_ hend
  show a.operands.length + (m.below rest).length ≤ m.dataCapacity
  omega

theorem Steady.replace {m : SplitThread} (h : m.Steady) {a a' : Activation} {rest : List Activation}
    (hm : m.activations = a :: rest)
    (hlen : a'.values.length ≤ a.values.length ∨
      m.room = .ok () ∧ a'.values.length = a.values.length + 1) :
    Steady { m with activations := a' :: rest } := by
  have hle := h.values_le
  have hvalues := length_values_of_activations hm
  refine ⟨?_, h.idle_endBody⟩
  rw [@length_values_of_activations { m with activations := a' :: rest } a' rest rfl]
  show a'.values.length + (m.below rest).length ≤ m.dataCapacity
  rcases hlen with hlen | ⟨hroom, hlen⟩
  · omega
  · have hlt : m.values.length < m.dataCapacity := by
      rw [room] at hroom
      split at hroom
      · assumption
      · cases hroom
    omega

/-- The machine that goes on or returns, if one does, is steady. -/
def Outcome.Steady : Outcome → Prop
  | .more m => m.Steady
  | .returned m => m.Steady
  | .faulted _ => True

theorem Steady.step {m : SplitThread} (h : m.Steady) (budget : Option Nat) :
    (m.step budget).Steady := by
  rw [SplitThread.step]
  split
  · trivial
  split
  · trivial
  next b hbyte =>
  split
  · trivial
  · trivial
  next op a rest hop hm =>
  have hcounted : Steady { m with executed := m.executed + 1 } := ⟨h.values_le, h.idle_endBody⟩
  by_cases hend : op = .endBody
  · have hpointer : m.current = a.pointer := by rw [current, hm]
    have hleave : (SplitThread.leave { m with executed := m.executed + 1 } a rest).Steady := by
      refine hcounted.leave hm fun b' hb' => ?_
      have hsame : b = b' := Option.some.inj (hbyte.symm.trans (hpointer ▸ hb'))
      rw [← hsame, hop, hend]
    rw [hend]
    show Outcome.Steady (if rest.isEmpty then .returned _ else .more _)
    split <;> exact hleave
  · have hbounded := @Activation.bounded_exec m.room a op hend
    cases hmade : a.exec m.room op with
    | error trap => trivial
    | ok left =>
      obtain ⟨a', rfl, hlen⟩ := hbounded left hmade
      exact hcounted.replace hm hlen

/-! ## Calls -/

theorem length_frames (host : List Value) (activations : List Activation) :
    (Activation.frames host activations).length = activations.length := by
  induction activations with
  | nil => rfl
  | cons a rest ih => rw [Activation.frames, List.length_cons, List.length_cons, ih]

theorem depth_calls_flatten (m : SplitThread) : m.flatten.calls.depth = m.activations.length := by
  rw [flatten, Stack.depth_ofTopFirst, length_frames]

theorem results_flatten (m : SplitThread) : m.flatten.results = m.values :=
  Stack.toListTopFirst_ofTopFirst _ _

theorem withValues_flatten (m : SplitThread) (values : List Value) :
    Exec.withValues m.flatten values = (m.give values.reverse).flatten := by
  rw [Exec.withValues, results_flatten, flatten_give]
  rfl

/-- The frame that a call gets is that of its activation. -/
theorem frameOn_flatten (m : SplitThread) (p : Pointer) (locals : List Value) :
    Exec.frameOn m.flatten locals.length = Activation.frame m.host m.activations ⟨p, locals, []⟩ := by
  obtain ⟨activations, host, idle, executed, dataCapacity, callCapacity⟩ := m
  cases activations with
  | nil => simp [Exec.frameOn, flatten, Activation.frame, Activation.frames, values, Nat.add_comm]
  | cons a rest =>
    simp [Exec.frameOn, flatten, Activation.frame, Activation.frames, values, current, Nat.add_comm]

/-- A call gets the same place on shared stacks as apart. -/
theorem enter_flatten (functionIndex : UInt32) (f : Function) (arguments : List Value) (m : SplitThread) :
    Exec.enter functionIndex f arguments m.flatten =
      match m.enter functionIndex f arguments with
      | (.ok (), m') => .ok () m'.flatten
      | (.error trap, m') => .error trap m'.flatten := by
  have hdata : m.flatten.data.depth = m.values.length := Stack.depth_ofTopFirst _ _
  have hcapacity : m.flatten.data.capacity = m.dataCapacity := rfl
  have hcallCapacity : m.flatten.calls.capacity = m.callCapacity := rfl
  rw [Exec.enter_eq]
  simp only [SplitThread.enter, Exec.localsOf, hdata, hcapacity, hcallCapacity, depth_calls_flatten,
    withValues_flatten]
  generalize arguments ++ f.locals.map Value.zero = locals
  by_cases hroom : locals.length ≤ m.dataCapacity - m.values.length
  · rw [if_pos hroom, if_neg (Nat.not_lt_of_le hroom)]
    by_cases hcalls : m.activations.length < m.callCapacity
    · rw [if_pos hcalls, if_neg (Nat.not_le_of_lt hcalls), flatten_give,
        frameOn_flatten m (.start functionIndex f.body)]
      simp [flatten, values, Activation.values, Activation.frames, current]
    · rw [if_neg hcalls, if_pos (Nat.le_of_not_lt hcalls)]
  · rw [if_neg hroom, if_pos (Nat.lt_of_not_le hroom)]

end SplitThread

/-! ## Runs -/

/-- What a host does to a thread, one thing at a time. -/
inductive Move
  /-- Calls a function, whether that succeeds or fails. -/
  | enter (functionIndex : UInt32) (f : Function) (arguments : List Value)
  /-- Lets the loop take one turn. -/
  | turn (budget : Option Nat)

/-- The thread after a move, unless that faults. -/
def Thread.move (t : Thread) : Move → Option Thread
  | .enter functionIndex f arguments =>
    match Exec.enter functionIndex f arguments t with
    | .ok () t' => some t'
    | .error _ t' => some t'
  | .turn budget =>
    match t.turn budget with
    | .more t' => some t'
    | .stop (.ok ()) t' => some t'
    | .stop (.error _) _ => none

namespace SplitThread

/-- The machine after a move, unless that faults. -/
def move (m : SplitThread) : Move → Option SplitThread
  | .enter functionIndex f arguments => some (m.enter functionIndex f arguments).2
  | .turn budget =>
    match m.step budget with
    | .more m' => some m'
    | .returned m' => some m'
    | .faulted _ => none

theorem move_flatten {m : SplitThread} (h : m.Steady) (move : Move) :
    m.flatten.move move = (m.move move).map flatten := by
  cases move with
  | enter functionIndex f arguments =>
    simp only [Thread.move, SplitThread.move, enter_flatten]
    rcases m.enter functionIndex f arguments with ⟨⟨⟩ | ⟨⟩, m'⟩ <;> rfl
  | turn budget =>
    have hrefines := turn_refines_step h budget
    simp only [Thread.move, SplitThread.move]
    generalize m.flatten.turn budget = turn, m.step budget = outcome at hrefines ⊢
    cases hrefines <;> rfl

theorem Steady.move {m m' : SplitThread} (h : m.Steady) {move : Move} (hmove : m.move move = some m') :
    m'.Steady := by
  cases move with
  | enter functionIndex f arguments =>
    cases hmove
    exact h.enter functionIndex f arguments
  | turn budget =>
    have hstep := h.step budget
    simp only [SplitThread.move] at hmove
    split at hmove <;> cases hmove
    · next hmore => rwa [hmore] at hstep
    · next hreturned => rwa [hreturned] at hstep

theorem foldlM_move_flatten {m : SplitThread} (h : m.Steady) (moves : List Move) :
    moves.foldlM Thread.move m.flatten = (moves.foldlM SplitThread.move m).map flatten := by
  induction moves generalizing m with
  | nil => rfl
  | cons move moves ih =>
    rw [List.foldlM_cons, List.foldlM_cons, move_flatten h]
    cases hmove : m.move move with
    | none => rfl
    | some m' => exact ih (h.move hmove)

theorem Steady.foldlM_move {m m' : SplitThread} (h : m.Steady) {moves : List Move}
    (hmoves : moves.foldlM SplitThread.move m = some m') : m'.Steady := by
  induction moves generalizing m with
  | nil =>
    cases hmoves
    exact h
  | cons move moves ih =>
    rw [List.foldlM_cons] at hmoves
    cases hmove : m.move move with
    | none =>
      rw [hmove] at hmoves
      cases hmoves
    | some m₁ =>
      rw [hmove] at hmoves
      exact ih (h.move hmove) hmoves

end SplitThread

/-- A thread that a host can bring about is a machine with locals apart that
makes the same moves, laid out on shared stacks, and its next turn is the next
step of that machine. -/
theorem Thread.refines_splitThread {dataCapacity callCapacity : Nat} {moves : List Move} {t : Thread}
    (h : moves.foldlM Thread.move (Thread.new dataCapacity callCapacity) = some t) :
    ∃ m, moves.foldlM SplitThread.move (SplitThread.new dataCapacity callCapacity) = some m ∧
      t = m.flatten ∧ ∀ budget, SplitThread.Refines (t.turn budget) (m.step budget) := by
  have hsteady := SplitThread.steady_new dataCapacity callCapacity
  have hflatten := SplitThread.foldlM_move_flatten hsteady moves
  have hnew : (SplitThread.new dataCapacity callCapacity).flatten = Thread.new dataCapacity callCapacity := rfl
  rw [hnew, h] at hflatten
  obtain ⟨m, hm, ht⟩ := Option.map_eq_some_iff.1 hflatten.symm
  refine ⟨m, hm, ht.symm, fun budget => ?_⟩
  rw [← ht]
  exact SplitThread.turn_refines_step (hsteady.foldlM_move hm) budget

/-- A call that fails for lack of room leaves an operand, which is added to
another one; then a call comes and goes. -/
theorem Thread.refines_splitThread_failed_call :
    let main : Function := ⟨[.i64], [0x20, 0x00, 0x6a, 0x21, 0x00, 0x0b]⟩
    let moves : List Move := [.enter 0 main [.i32 5], .turn none, .enter 1 main [.i32 7, .i32 8],
      .turn none, .enter 1 ⟨[], [0x0b]⟩ [], .turn (some 3)]
    ∃ t m, moves.foldlM Thread.move (Thread.new 4 2) = some t ∧
      moves.foldlM SplitThread.move (SplitThread.new 4 2) = some m ∧
      t.data.items = #[.i32 5, .i64 0, .i32 12] ∧ t = m.flatten ∧
      ∀ budget, SplitThread.Refines (t.turn budget) (m.step budget) := by
  intro main moves
  have hrun : (moves.foldlM Thread.move (Thread.new 4 2)).map (·.data.items) =
      some #[.i32 5, .i64 0, .i32 12] := by
    decide +kernel
  obtain ⟨t, ht, hdata⟩ := Option.map_eq_some_iff.1 hrun
  obtain ⟨m, hm, hflatten, hturn⟩ := Thread.refines_splitThread ht
  exact ⟨t, m, ht, hm, hdata, hflatten, hturn⟩

end StackVm
