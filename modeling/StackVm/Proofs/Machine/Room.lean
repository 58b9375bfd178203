import StackVm.Proofs.Machine.Layout

/-!
# What instructions need room for

An instruction takes room in one place only: where it puts its result on the
data stack, which is the last thing it does. What comes before adds no values,
does the same on stacks of any capacity, and traps neither for lack of room nor
in the way the loop does (`Exec.Frugal`). `Exec.PushesLast` is this form, and
`Opcode.pushesLast_exec` says that every instruction has it. The form alone tells
what an instruction does on stacks of all capacities (`PushesLast.does`), and so

* how it can trap (`PushesLast.trap_cases`), and that it leaves at most one value
  more (`PushesLast.depth_le_succ`), and none if it returns
  (`PushesLast.depth_le_of_returned`);
* that it does on stacks of other capacities what it does on these, if there is
  room for its result (`PushesLast.resized_of_le`, `PushesLast.resized_of_error`),
  and otherwise overflows (`PushesLast.overflow_of_lt`).
-/

namespace StackVm

/-- Whether a trap tells of an instruction that cannot be carried out. Others
tell of a lack of room, or that there is no instruction to carry out. -/
def Trap.ofInstruction : Trap → Bool
  | stackUnderflow | unreachable | typeMismatch .. | truncatedOperand => true
  | stackOverflow _ | invalidOpcode _ | endOfBody | budgetExhausted => false

/-- A result, with `change` made to the state that comes with it. -/
def mapState {σ β : Type} (change : σ → σ) : EStateM.Result Trap σ β → EStateM.Result Trap σ β
  | .ok b s => .ok b (change s)
  | .error e s => .error e (change s)

/-! ## Stacks of other capacities -/

namespace Stack

variable {α β : Type}

/-- The same items, on a stack of another capacity. -/
def resized (capacity : Nat) (s : Stack α) : Stack α :=
  { s with capacity }

/-- An action that adds no items, and does the same whatever the capacity is. -/
structure Frugal (action : Action α β) : Prop where
  resized : ∀ s capacity, action (s.resized capacity) = mapState (Stack.resized capacity) (action s)
  depth_le : ∀ s, (stateAfter action s).depth ≤ s.depth
  ofInstruction : ∀ s trap s', action s = .error trap s' → trap.ofInstruction

/-- An action on the items alone is frugal if it adds none. -/
theorem frugal_of_items {action : Action α β} (change : Array α → Option (β × Array α))
    (haction : ∀ s, action s =
      match change s.items with
      | some (b, items) => .ok b { s with items }
      | none => .error .stackUnderflow s)
    (hsize : ∀ items b items', change items = some (b, items') → items'.size ≤ items.size) :
    Frugal action where
  resized s capacity := by
    rw [haction, haction, Stack.resized]
    cases change s.items <;> rfl
  depth_le s := by
    rw [stateAfter, haction]
    rcases hchange : change s.items with _ | ⟨b, items⟩
    · exact Nat.le_refl _
    · exact hsize _ _ _ hchange
  ofInstruction s trap s' h := by
    rw [haction] at h
    split at h <;> cases h
    rfl

theorem frugal_pop : Frugal (pop : Action α α) := by
  refine frugal_of_items (fun items => items.back?.map fun a => (a, items.pop)) (fun s => ?_) ?_
  · simp only [pop]
    cases s.items.back? <;> rfl
  · intro items a items' h
    obtain ⟨b, -, hitems⟩ := Option.map_eq_some_iff.1 h
    cases hitems
    simp only [Array.size_pop]
    omega

theorem frugal_peek (k : Nat) : Frugal (peek k : Action α α) := by
  refine frugal_of_items (fun items => if _h : k < items.size then
    some (items[items.size - 1 - k], items) else none) (fun s => ?_) ?_
  · by_cases hlt : k < s.items.size <;> simp [peek, hlt]
  · intro items a items' h
    split at h <;> cases h
    exact Nat.le_refl _

theorem frugal_poke (k : Nat) (a : α) : Frugal (poke k a) := by
  refine frugal_of_items (fun items => if k < items.size then
    some ((), items.setIfInBounds (items.size - 1 - k) a) else none) (fun s => ?_) ?_
  · by_cases hlt : k < s.items.size <;> simp [poke, hlt]
  · intro items b items' h
    split at h <;> cases h
    exact Nat.le_of_eq (Array.size_setIfInBounds ..)

theorem frugal_discard (start stop : Nat) : Frugal (discard start stop : Action α Unit) := by
  refine frugal_of_items (fun items => if start ≤ stop ∧ stop ≤ items.size then
    some ((), items.extract 0 start ++ items.extract stop items.size) else none) (fun s => ?_) ?_
  · by_cases hbound : start ≤ stop ∧ stop ≤ s.items.size
    · rw [discard, if_pos hbound, if_pos hbound]
    · rw [discard, if_neg hbound, if_neg hbound]
  · intro items b items' h
    split at h <;> cases h
    simp only [Array.size_append, Array.size_extract]
    omega

end Stack

/-- The same calls and values, on stacks of other capacities. -/
def Thread.resized (dataCapacity callCapacity : Nat) (t : Thread) : Thread :=
  { t with calls := t.calls.resized callCapacity, data := t.data.resized dataCapacity }

namespace Exec

variable {α β : Type}

/-! ## Actions that take no room -/

/-- An action that adds no values, does the same whatever the capacities are,
and traps in the way of an instruction only. -/
structure Frugal (action : Exec β) : Prop where
  resized : ∀ t dataCapacity callCapacity, action (t.resized dataCapacity callCapacity) =
    mapState (Thread.resized dataCapacity callCapacity) (action t)
  depth_le : ∀ t, (stateAfter action t).data.depth ≤ t.data.depth
  ofInstruction : ∀ t trap t', action t = .error trap t' → trap.ofInstruction

theorem frugal_pure (b : β) : Frugal (pure b) where
  resized _ _ _ := rfl
  depth_le _ := Nat.le_refl _
  ofInstruction _ _ _ h := by cases h

theorem frugal_throw {trap : Trap} (htrap : trap.ofInstruction) : Frugal (throw trap : Exec β) where
  resized _ _ _ := rfl
  depth_le _ := Nat.le_refl _
  ofInstruction _ _ _ h := by
    cases h
    exact htrap

theorem frugal_bind {action : Exec α} {next : α → Exec β} (h₁ : Frugal action)
    (h₂ : ∀ a, Frugal (next a)) : Frugal (action >>= next) where
  resized t dataCapacity callCapacity := by
    simp only [bind, EStateM.bind, h₁.resized]
    cases action t with
    | ok a t₁ => exact (h₂ a).resized t₁ dataCapacity callCapacity
    | error e t₁ => rfl
  depth_le t := by
    have hle := h₁.depth_le t
    cases haction : action t with
    | ok a t₁ =>
      rw [stateAfter_of_ok haction] at hle
      rw [stateAfter, bind_of_ok haction]
      exact Nat.le_trans ((h₂ a).depth_le t₁) hle
    | error e t₁ =>
      rw [stateAfter_of_error haction] at hle
      rw [stateAfter_of_error (bind_of_error haction)]
      exact hle
  ofInstruction t trap t' h := by
    cases haction : action t with
    | ok a t₁ =>
      rw [bind_of_ok haction] at h
      exact (h₂ a).ofInstruction t₁ trap t' h
    | error e t₁ =>
      rw [bind_of_error haction] at h
      cases h
      exact h₁.ofInstruction t _ _ haction

theorem frugal_onData {action : Stack.Action Value β} (h : Stack.Frugal action) :
    Frugal (onData action) where
  resized t dataCapacity callCapacity := by
    simp only [onData, Thread.resized, h.resized]
    cases action t.data <;> rfl
  depth_le t := by
    have hle := h.depth_le t.data
    simp only [stateAfter, onData] at hle ⊢
    cases haction : action t.data <;> rw [haction] at hle <;> exact hle
  ofInstruction t trap t' htrap := by
    simp only [onData] at htrap
    split at htrap
    · cases htrap
    · next hresult =>
      cases htrap
      exact h.ofInstruction _ _ _ hresult

theorem frugal_popI32 : Frugal (onData Stack.popI32) := by
  rw [Stack.popI32, onData_bind]
  refine frugal_bind (frugal_onData Stack.frugal_pop) fun v => ?_
  cases v with
  | i32 n => exact frugal_pure n
  | i64 | f32 | f64 | funcref | externref => exact frugal_throw rfl

theorem frugal_onCalls {action : Stack.Action CallFrame β} (h : Stack.Frugal action) :
    Frugal (onCalls action) where
  resized t dataCapacity callCapacity := by
    simp only [onCalls, Thread.resized, h.resized]
    cases action t.calls <;> rfl
  depth_le t := by
    simp only [stateAfter, onCalls]
    cases action t.calls <;> exact Nat.le_refl _
  ofInstruction t trap t' htrap := by
    simp only [onCalls] at htrap
    split at htrap
    · cases htrap
    · next hresult =>
      cases htrap
      exact h.ofInstruction _ _ _ hresult

theorem frugal_depth : Frugal depth where
  resized _ _ _ := rfl
  depth_le _ := Nat.le_refl _
  ofInstruction _ _ _ h := by cases h

theorem frugal_frame : Frugal frame :=
  frugal_onCalls (Stack.frugal_peek 0)

theorem frugal_advance : Frugal advance where
  resized _ _ _ := rfl
  depth_le _ := Nat.le_refl _
  ofInstruction _ _ _ h := by cases h

theorem frugal_jump (target : Pointer) : Frugal (jump target) where
  resized _ _ _ := rfl
  depth_le _ := Nat.le_refl _
  ofInstruction _ _ _ h := by cases h

theorem frugal_operand : Frugal operand where
  resized t dataCapacity callCapacity := by
    simp only [operand, Thread.resized]
    cases Leb128.read t.current.rest <;> rfl
  depth_le t := by
    simp only [stateAfter, operand]
    cases Leb128.read t.current.rest <;> exact Nat.le_refl _
  ofInstruction t trap t' h := by
    simp only [operand] at h
    split at h <;> cases h
    rfl

theorem frugal_unsignedOperand : Frugal unsignedOperand :=
  frugal_bind frugal_operand fun _ => frugal_pure _

theorem frugal_signedOperand : Frugal signedOperand :=
  frugal_bind frugal_operand fun _ => frugal_pure _

theorem frugal_localIndex (x : UInt32) : Frugal (localIndex x) := by
  refine frugal_bind frugal_frame fun f => ?_
  cases f.localSlot? x with
  | none => exact frugal_throw rfl
  | some slot =>
    refine frugal_bind frugal_depth fun depth => ?_
    split
    · exact frugal_pure _
    · exact frugal_throw rfl

theorem frugal_requireOperands (count : Nat) : Frugal (requireOperands count) := by
  refine frugal_bind frugal_frame fun f => frugal_bind frugal_depth fun depth => ?_
  split
  · exact frugal_throw rfl
  · exact frugal_pure _

theorem frugal_endBody : Frugal endBody := by
  refine frugal_bind (frugal_onCalls Stack.frugal_pop) fun f =>
    frugal_bind ?_ fun _ => frugal_bind ?_ fun _ => frugal_pure _
  · simp only [dropLocals]
    split
    · exact frugal_onData (Stack.frugal_discard _ _)
    · exact frugal_pure _
  · rw [resume]
    cases f.caller with
    | none => exact frugal_pure _
    | some caller => exact frugal_jump caller

/-! ## Instructions -/

/-- Makes a value, and puts it on the data stack. -/
def pushing (action : Exec Value) : Exec Progress := do
  let v ← action
  onData (Stack.push v)
  return .next

/-- What takes room comes last, and is one value at most. -/
inductive PushesLast : Exec Progress → Prop
  | nothing {action : Exec Progress} : Frugal action → PushesLast action
  | value {action : Exec Value} : Frugal action → PushesLast (pushing action)

theorem pushesLast_binary (op : Int32 → Int32 → Int32) : PushesLast (binary op) := by
  have hform : binary op = pushing (do
      advance
      requireOperands 2
      let b ← onData Stack.popI32
      let a ← onData Stack.popI32
      return .i32 (op a b)) := by
    simp only [binary, pushing, bind_assoc, pure_bind]
  rw [hform]
  exact .value (frugal_bind frugal_advance fun _ =>
    frugal_bind (frugal_requireOperands 2) fun _ =>
      frugal_bind frugal_popI32 fun _ =>
        frugal_bind frugal_popI32 fun _ => frugal_pure _)

end Exec

open Exec Stack in
theorem Opcode.pushesLast_exec (op : Opcode) : PushesLast op.exec := by
  cases op with
  | unreachable => exact .nothing (frugal_throw rfl)
  | nop => exact .nothing (frugal_bind frugal_advance fun _ => frugal_pure _)
  | endBody => exact .nothing frugal_endBody
  | drop =>
    exact .nothing (frugal_bind frugal_advance fun _ =>
      frugal_bind (frugal_requireOperands 1) fun _ =>
        frugal_bind (frugal_onData frugal_pop) fun _ => frugal_pure _)
  | localGet =>
    have hform : Opcode.localGet.exec = pushing (do
        advance
        let x ← unsignedOperand
        onData (Stack.peek (← localIndex x))) := by
      simp only [exec, pushing, bind_assoc]
    rw [hform]
    exact .value (frugal_bind frugal_advance fun _ =>
      frugal_bind frugal_unsignedOperand fun x =>
        frugal_bind (frugal_localIndex x) fun i => frugal_onData (frugal_peek i))
  | localSet =>
    exact .nothing (frugal_bind frugal_advance fun _ =>
      frugal_bind frugal_unsignedOperand fun x =>
        frugal_bind (frugal_requireOperands 1) fun _ =>
          frugal_bind (frugal_onData frugal_pop) fun v =>
            frugal_bind (frugal_localIndex x) fun i =>
              frugal_bind (frugal_onData (frugal_poke i v)) fun _ => frugal_pure _)
  | localTee =>
    exact .nothing (frugal_bind frugal_advance fun _ =>
      frugal_bind frugal_unsignedOperand fun x =>
        frugal_bind (frugal_requireOperands 1) fun _ =>
          frugal_bind (frugal_onData (frugal_peek 0)) fun v =>
            frugal_bind (frugal_localIndex x) fun i =>
              frugal_bind (frugal_onData (frugal_poke i v)) fun _ => frugal_pure _)
  | i32Const =>
    have hform : Opcode.i32Const.exec = pushing (do
        advance
        let c ← signedOperand
        return .i32 c) := by
      simp only [exec, pushing, bind_assoc, pure_bind]
    rw [hform]
    exact .value (frugal_bind frugal_advance fun _ =>
      frugal_bind frugal_signedOperand fun _ => frugal_pure _)
  | i32Add => exact pushesLast_binary _
  | i32Sub => exact pushesLast_binary _
  | i32Mul => exact pushesLast_binary _

namespace Exec

/-- The thread with one more value at the top of its data stack, which need not
have room for it. -/
def pushed (t : Thread) (v : Value) : Thread :=
  { t with data := { t.data with items := t.data.items.push v } }

theorem depth_pushed (t : Thread) (v : Value) : (pushed t v).data.depth = t.data.depth + 1 :=
  Array.size_push _

theorem pushing_eq (action : Exec Value) (t : Thread) : pushing action t =
    match action t with
    | .ok v t₁ =>
      if t₁.data.depth < t₁.data.capacity then .ok .next (pushed t₁ v)
      else .error (.stackOverflow t₁.data.capacity) t₁
    | .error e t₁ => .error e t₁ := by
  cases haction : action t with
  | error e t₁ => exact bind_of_error haction
  | ok v t₁ =>
    have hpush : onData (Stack.push v) t₁ =
        if t₁.data.depth < t₁.data.capacity then .ok () (pushed t₁ v)
        else .error (.stackOverflow t₁.data.capacity) t₁ := by
      simp only [onData, Stack.push]
      by_cases hroom : t₁.data.items.size < t₁.data.capacity
      · rw [if_pos hroom]
        exact (if_pos hroom).symm
      · rw [if_neg hroom]
        exact (if_neg hroom).symm
    rw [pushing, bind_of_ok haction]
    by_cases hroom : t₁.data.depth < t₁.data.capacity
    · rw [if_pos hroom] at hpush
      rw [bind_of_ok hpush]
      exact (if_pos hroom).symm
    · rw [if_neg hroom] at hpush
      rw [bind_of_error hpush]
      exact (if_neg hroom).symm

/-- What an action can do to a thread, said for all capacities at once: trap in
the way of an instruction, succeed without taking room, or take room for one
value as the last thing. -/
inductive Does (action : Exec Progress) (t : Thread) : Prop
  | trap {trap : Trap} {t' : Thread} : trap.ofInstruction → t'.data.depth ≤ t.data.depth →
    (∀ dataCapacity callCapacity, action (t.resized dataCapacity callCapacity) =
      .error trap (t'.resized dataCapacity callCapacity)) → Does action t
  | keep {progress : Progress} {t' : Thread} : t'.data.depth ≤ t.data.depth →
    (∀ dataCapacity callCapacity, action (t.resized dataCapacity callCapacity) =
      .ok progress (t'.resized dataCapacity callCapacity)) → Does action t
  | push {t₁ : Thread} {v : Value} : t₁.data.depth ≤ t.data.depth →
    (∀ dataCapacity callCapacity, action (t.resized dataCapacity callCapacity) =
      if t₁.data.depth < dataCapacity then .ok .next ((pushed t₁ v).resized dataCapacity callCapacity)
      else .error (.stackOverflow dataCapacity) (t₁.resized dataCapacity callCapacity)) → Does action t

namespace PushesLast

variable {action : Exec Progress} {t t' : Thread} {progress : Progress} {trap : Trap}
  {dataCapacity callCapacity : Nat}

theorem does (h : PushesLast action) (t : Thread) : Does action t := by
  cases h with
  | nothing hfrugal =>
    have hdepth := hfrugal.depth_le t
    cases haction : action t with
    | ok progress t' =>
      rw [stateAfter_of_ok haction] at hdepth
      exact .keep hdepth fun _ _ => by rw [hfrugal.resized, haction]; rfl
    | error trap t' =>
      rw [stateAfter_of_error haction] at hdepth
      exact .trap (hfrugal.ofInstruction t trap t' haction) hdepth fun _ _ => by
        rw [hfrugal.resized, haction]; rfl
  | @value action hfrugal =>
    have hdepth := hfrugal.depth_le t
    cases haction : action t with
    | ok v t₁ =>
      rw [stateAfter_of_ok haction] at hdepth
      exact .push hdepth fun _ _ => by rw [pushing_eq, hfrugal.resized, haction]; rfl
    | error trap t' =>
      rw [stateAfter_of_error haction] at hdepth
      exact .trap (hfrugal.ofInstruction t trap t' haction) hdepth fun _ _ => by
        rw [pushing_eq, hfrugal.resized, haction]; rfl

/-- An instruction that overflows finds the data stack full. -/
theorem trap_cases (h : PushesLast action) (htrap : action t = .error trap t') :
    t'.data.depth ≤ t.data.depth ∧
      (trap.ofInstruction ∨ trap = .stackOverflow t.data.capacity ∧ t.data.capacity ≤ t.data.depth) := by
  rcases h.does t with ⟨hown, hdepth, heq⟩ | ⟨-, heq⟩ | ⟨hdepth, heq⟩
  · cases htrap.symm.trans (heq t.data.capacity t.calls.capacity)
    exact ⟨hdepth, .inl hown⟩
  · cases htrap.symm.trans (heq t.data.capacity t.calls.capacity)
  · replace heq := htrap.symm.trans (heq t.data.capacity t.calls.capacity)
    split at heq <;> cases heq
    exact ⟨hdepth, .inr ⟨rfl, by omega⟩⟩

theorem depth_le_succ (h : PushesLast action) (hok : action t = .ok progress t') :
    t'.data.depth ≤ t.data.depth + 1 := by
  rcases h.does t with ⟨-, -, heq⟩ | ⟨hdepth, heq⟩ | @⟨t₁, v, hdepth, heq⟩
  · cases hok.symm.trans (heq t.data.capacity t.calls.capacity)
  · cases hok.symm.trans (heq t.data.capacity t.calls.capacity)
    exact Nat.le_succ_of_le hdepth
  · replace heq := hok.symm.trans (heq t.data.capacity t.calls.capacity)
    split at heq <;> cases heq
    have hpushed : (pushed t₁ v).data.depth = t₁.data.depth + 1 := depth_pushed t₁ v
    show (pushed t₁ v).data.depth ≤ _
    omega

/-- A return takes no room. -/
theorem depth_le_of_returned (h : PushesLast action) (hok : action t = .ok .returned t') :
    t'.data.depth ≤ t.data.depth := by
  rcases h.does t with ⟨-, -, heq⟩ | ⟨hdepth, heq⟩ | ⟨-, heq⟩
  · cases hok.symm.trans (heq t.data.capacity t.calls.capacity)
  · cases hok.symm.trans (heq t.data.capacity t.calls.capacity)
    exact hdepth
  · replace heq := hok.symm.trans (heq t.data.capacity t.calls.capacity)
    split at heq <;> cases heq

/-- With room for what it leaves, an instruction that succeeds on stacks of some
capacity does the same on others. -/
theorem resized_of_le (h : PushesLast action) (hok : action t = .ok progress t')
    (hroom : t'.data.depth ≤ dataCapacity) :
    action (t.resized dataCapacity callCapacity) = .ok progress (t'.resized dataCapacity callCapacity) := by
  rcases h.does t with ⟨-, -, heq⟩ | ⟨-, heq⟩ | @⟨t₁, v, -, heq⟩
  · cases hok.symm.trans (heq t.data.capacity t.calls.capacity)
  · cases hok.symm.trans (heq t.data.capacity t.calls.capacity)
    exact heq dataCapacity callCapacity
  · have hown := hok.symm.trans (heq t.data.capacity t.calls.capacity)
    split at hown <;> cases hown
    replace hroom : (pushed t₁ v).data.depth ≤ dataCapacity := hroom
    rw [depth_pushed] at hroom
    exact (heq dataCapacity callCapacity).trans (if_pos hroom)

/-- Without room for what it would leave, it overflows. -/
theorem overflow_of_lt (h : PushesLast action) (hok : action t = .ok progress t')
    (hdepth : t.data.depth ≤ dataCapacity) (hfull : dataCapacity < t'.data.depth) :
    ∃ t₁, action (t.resized dataCapacity callCapacity) = .error (.stackOverflow dataCapacity) t₁ := by
  rcases h.does t with ⟨-, -, heq⟩ | ⟨hle, heq⟩ | @⟨t₁, v, -, heq⟩
  · cases hok.symm.trans (heq t.data.capacity t.calls.capacity)
  · cases hok.symm.trans (heq t.data.capacity t.calls.capacity)
    exact absurd (Nat.lt_of_lt_of_le hfull hle) (Nat.not_lt_of_le hdepth)
  · have hown := hok.symm.trans (heq t.data.capacity t.calls.capacity)
    split at hown <;> cases hown
    replace hfull : dataCapacity < (pushed t₁ v).data.depth := hfull
    rw [depth_pushed] at hfull
    exact ⟨_, (heq dataCapacity callCapacity).trans (if_neg (by omega))⟩

/-- A trap that is not for lack of room does not depend on capacities. -/
theorem resized_of_error (h : PushesLast action) (htrap : action t = .error trap t')
    (hroom : trap ≠ .stackOverflow t.data.capacity) :
    action (t.resized dataCapacity callCapacity) = .error trap (t'.resized dataCapacity callCapacity) := by
  rcases h.does t with ⟨-, -, heq⟩ | ⟨-, heq⟩ | ⟨-, heq⟩
  · cases htrap.symm.trans (heq t.data.capacity t.calls.capacity)
    exact heq dataCapacity callCapacity
  · cases htrap.symm.trans (heq t.data.capacity t.calls.capacity)
  · have hown := htrap.symm.trans (heq t.data.capacity t.calls.capacity)
    split at hown <;> cases hown
    exact absurd rfl hroom

end PushesLast

end Exec

end StackVm
