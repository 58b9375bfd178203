import StackVm.Proofs.Machine.Layout
import StackVm.Proofs.Machine.Turns
import StackVm.Proofs.Module.Lookup

/-!
# The values of an execution

No instruction makes a value other than an `i32`. Everything else on the data stack
was put there when the function was entered, and is copied and moved about as it
is. So a value is an `i32` or the zero of a local that the function declares
(`Value.OfLocals`), in every state of an execution and among its results, and these
zeros are all that an instruction can find where it needs an `i32`
(`Interpreter.values_of_execute`).

* `Exec.Confined`: the actions that keep the values on the data stack within a
  property, whether they succeed or trap. All instructions are such, if every `i32`
  has the property (`Opcode.confined_exec`);
* `Thread.Visits`: the states of a run, all of which stay within it
  (`Thread.values_of_visits`).
-/

namespace StackVm

/-- The values that there are in a call of a function with locals of these types. -/
inductive Value.OfLocals (types : List ValueType) : Value → Prop
  | i32 (n : Int32) : OfLocals types (.i32 n)
  | zero {type : ValueType} : type ∈ types → OfLocals types (.zero type)

theorem Value.OfLocals.type_mem {types : List ValueType} {v : Value} (h : v.OfLocals types)
    (htype : v.type ≠ .i32) : v.type ∈ types := by
  cases h with
  | i32 n => exact absurd rfl htype
  | zero hmem => rwa [type_zero]

theorem Value.OfLocals.exists_i32 {types : List ValueType} {v : Value} (h : v.OfLocals types)
    (htypes : ∀ type ∈ types, type = .i32) : ∃ n, v = .i32 n := by
  cases h with
  | i32 n => exact ⟨n, rfl⟩
  | zero hmem =>
    rw [htypes _ hmem]
    exact ⟨0, rfl⟩

/-- A type mismatch, if it is one, is about a value with the property where an `i32`
is needed. -/
def Trap.Mismatches (P : Value → Prop) : Trap → Prop
  | typeMismatch expected actual => expected = .i32 ∧ actual ≠ .i32 ∧ ∃ v, P v ∧ v.type = actual
  | _ => True

/-! ## Stacks -/

namespace Stack

variable {β : Type} {P : Value → Prop}

/-- All values on the stack have the property. -/
def All (P : Value → Prop) (s : Stack Value) : Prop :=
  ∀ v ∈ s.items, P v

/-- An action that leaves values with the property where there are only such, and
gives a result with another. -/
def Confined (P : Value → Prop) (action : Action Value β) (Q : β → Prop := fun _ => True) : Prop :=
  ∀ s, s.All P →
    match action s with
    | .ok b s' => Q b ∧ s'.All P
    | .error trap s' => trap.Mismatches P ∧ s'.All P

theorem confined_push {v : Value} (hv : P v) : Confined P (push v) := by
  intro s h
  rw [push]
  by_cases hroom : s.items.size < s.capacity
  · rw [if_pos hroom]
    refine ⟨trivial, fun w hw => ?_⟩
    rcases Array.mem_push.1 hw with hw | rfl
    · exact h w hw
    · exact hv
  · rw [if_neg hroom]
    exact ⟨trivial, h⟩

theorem confined_pop : Confined P (pop : Action Value Value) P := by
  intro s h
  rw [pop]
  cases hback : s.items.back? with
  | none => exact ⟨trivial, h⟩
  | some v =>
    refine ⟨h v (Array.mem_of_back? hback), fun w hw => ?_⟩
    obtain ⟨i, hi, rfl⟩ := Array.mem_iff_getElem.1 hw
    rw [Array.getElem_pop]
    exact h _ (Array.getElem_mem _)

theorem confined_peek (k : Nat) : Confined P (peek k : Action Value Value) P := by
  intro s h
  rw [peek]
  by_cases hlt : k < s.items.size
  · rw [dif_pos hlt]
    exact ⟨h _ (Array.getElem_mem _), h⟩
  · rw [dif_neg hlt]
    exact ⟨trivial, h⟩

theorem confined_poke (k : Nat) {v : Value} (hv : P v) : Confined P (poke k v) := by
  intro s h
  rw [poke]
  by_cases hlt : k < s.items.size
  · rw [if_pos hlt]
    refine ⟨trivial, fun w hw => ?_⟩
    rcases Array.mem_or_eq_of_mem_setIfInBounds hw with hw | rfl
    · exact h w hw
    · exact hv
  · rw [if_neg hlt]
    exact ⟨trivial, h⟩

theorem confined_discard (start stop : Nat) :
    Confined P (discard start stop : Action Value Unit) := by
  intro s h
  have hextract : ∀ first last, ∀ v ∈ s.items.extract first last, P v := by
    intro first last v hv
    obtain ⟨i, hi, rfl⟩ := Array.mem_iff_getElem.1 hv
    rw [Array.getElem_extract]
    exact h _ (Array.getElem_mem _)
  rw [discard]
  by_cases hbound : start ≤ stop ∧ stop ≤ s.items.size
  · rw [if_pos hbound]
    refine ⟨trivial, fun v hv => ?_⟩
    rcases Array.mem_append.1 hv with hv | hv
    · exact hextract _ _ v hv
    · exact hextract _ _ v hv
  · rw [if_neg hbound]
    exact ⟨trivial, h⟩

end Stack

/-! ## Actions -/

namespace Exec

variable {α β : Type} {P : Value → Prop} {Q : α → Prop} {R : β → Prop}

/-- An action that leaves values with the property on the data stack where there are
only such, and gives a result with another. A type mismatch is about such a value. -/
def Confined (P : Value → Prop) (action : Exec β) (Q : β → Prop := fun _ => True) : Prop :=
  ∀ t, t.data.All P →
    match action t with
    | .ok b t' => Q b ∧ t'.data.All P
    | .error trap t' => trap.Mismatches P ∧ t'.data.All P

theorem confined_pure {b : β} (hb : R b) : Confined P (pure b) R :=
  fun _ h => ⟨hb, h⟩

theorem confined_throw {trap : Trap} (htrap : trap.Mismatches P) : Confined P (throw trap : Exec β) R :=
  fun _ h => ⟨htrap, h⟩

theorem Confined.of_ok {action : Exec β} (h : Confined P action R) {t t' : Thread} (ht : t.data.All P) {b : β}
    (hok : action t = .ok b t') : R b ∧ t'.data.All P := by
  have h := h t ht
  rwa [hok] at h

theorem Confined.of_error {action : Exec β} (h : Confined P action R) {t t' : Thread} (ht : t.data.All P)
    {trap : Trap} (herror : action t = .error trap t') : trap.Mismatches P ∧ t'.data.All P := by
  have h := h t ht
  rwa [herror] at h

theorem Confined.stateAfter {action : Exec β} (h : Confined P action R) {t : Thread} (ht : t.data.All P) :
    (stateAfter action t).data.All P := by
  cases haction : action t with
  | ok b t' =>
    rw [stateAfter_of_ok haction]
    exact (h.of_ok ht haction).2
  | error trap t' =>
    rw [stateAfter_of_error haction]
    exact (h.of_error ht haction).2

theorem confined_bind {action : Exec α} {next : α → Exec β} (h₁ : Confined P action Q)
    (h₂ : ∀ a, Q a → Confined P (next a) R) : Confined P (action >>= next) R := by
  intro t h
  simp only [bind, EStateM.bind]
  cases haction : action t with
  | ok a t₁ =>
    obtain ⟨ha, ht₁⟩ := h₁.of_ok h haction
    exact h₂ a ha t₁ ht₁
  | error e t₁ => exact h₁.of_error h haction

theorem confined_onData {action : Stack.Action Value β} (h : Stack.Confined P action R) :
    Confined P (onData action) R := by
  intro t ht
  have h := h t.data ht
  simp only [onData]
  cases hresult : action t.data with
  | ok b data =>
    rw [hresult] at h
    exact h
  | error e data =>
    rw [hresult] at h
    exact h

/-- Where something else than an `i32` is found instead of one, it was there. -/
theorem confined_popI32 : Confined P (onData Stack.popI32) := by
  rw [Stack.popI32, onData_bind]
  refine confined_bind (confined_onData Stack.confined_pop) fun v hv => ?_
  cases v with
  | i32 n => exact confined_pure trivial
  | i64 | f32 | f64 | funcref | externref =>
    refine confined_throw ⟨rfl, ?_, _, hv, rfl⟩
    simp [Value.type]

theorem confined_pushAll {values : List Value} (h : ∀ v ∈ values, P v) :
    Confined P (onData (Stack.pushAll values)) := by
  induction values with
  | nil => exact confined_pure trivial
  | cons v rest ih =>
    rw [Stack.pushAll, onData_bind]
    exact confined_bind (confined_onData (Stack.confined_push (h v List.mem_cons_self))) fun _ _ =>
      ih fun w hw => h w (List.mem_cons_of_mem v hw)

/-- An action on the call stack does not concern the values. -/
theorem confined_onCalls {action : Stack.Action CallFrame β}
    (htrap : ∀ s trap s', action s = .error trap s' → trap.Mismatches P) :
    Confined P (onCalls action) := by
  intro t h
  simp only [onCalls]
  cases hresult : action t.calls with
  | ok b calls => exact ⟨trivial, h⟩
  | error e calls => exact ⟨htrap _ _ _ hresult, h⟩

theorem confined_frame : Confined P frame := by
  refine confined_onCalls fun s trap s' htrap => ?_
  simp only [Stack.peek] at htrap
  split at htrap <;> cases htrap
  exact trivial

theorem confined_popCall : Confined P (onCalls Stack.pop) := by
  refine confined_onCalls fun s trap s' htrap => ?_
  simp only [Stack.pop] at htrap
  split at htrap <;> cases htrap
  exact trivial

theorem confined_pushCall (f : CallFrame) : Confined P (onCalls (Stack.push f)) := by
  refine confined_onCalls fun s trap s' htrap => ?_
  simp only [Stack.push] at htrap
  split at htrap <;> cases htrap
  exact trivial

theorem confined_depth : Confined P depth :=
  fun _ h => ⟨trivial, h⟩

theorem confined_advance : Confined P advance :=
  fun _ h => ⟨trivial, h⟩

theorem confined_jump (target : Pointer) : Confined P (jump target) :=
  fun _ h => ⟨trivial, h⟩

theorem confined_operand : Confined P operand := by
  intro t h
  rw [operand]
  cases Leb128.read t.current.rest with
  | none => exact ⟨trivial, h⟩
  | some g => exact ⟨trivial, h⟩

theorem confined_unsignedOperand : Confined P unsignedOperand :=
  confined_bind confined_operand fun _ _ => confined_pure trivial

theorem confined_signedOperand : Confined P signedOperand :=
  confined_bind confined_operand fun _ _ => confined_pure trivial

theorem confined_localIndex (x : UInt32) : Confined P (localIndex x) := by
  refine confined_bind confined_frame fun f _ => ?_
  cases f.localSlot? x with
  | none => exact confined_throw trivial
  | some slot =>
    refine confined_bind confined_depth fun depth _ => ?_
    split
    · exact confined_pure trivial
    · exact confined_throw trivial

theorem confined_requireOperands (count : Nat) : Confined P (requireOperands count) := by
  refine confined_bind confined_frame fun f _ => confined_bind confined_depth fun depth _ => ?_
  split
  · exact confined_throw trivial
  · exact confined_pure trivial

theorem confined_dropLocals (f : CallFrame) : Confined P (dropLocals f) := by
  rw [dropLocals]
  split
  · exact confined_onData (Stack.confined_discard _ _)
  · exact confined_pure trivial

theorem confined_resume (f : CallFrame) : Confined P (resume f) := by
  rw [resume]
  split
  · exact confined_pure trivial
  · exact confined_jump _

theorem confined_endBody : Confined P endBody :=
  confined_bind confined_popCall fun f _ => confined_bind (confined_dropLocals f) fun _ _ =>
    confined_bind (confined_resume f) fun _ _ => confined_pure trivial

theorem confined_binary (hi32 : ∀ n, P (.i32 n)) (op : Int32 → Int32 → Int32) : Confined P (binary op) :=
  confined_bind confined_advance fun _ _ =>
    confined_bind (confined_requireOperands 2) fun _ _ =>
      confined_bind confined_popI32 fun _ _ =>
        confined_bind confined_popI32 fun _ _ =>
          confined_bind (confined_onData (Stack.confined_push (hi32 _))) fun _ _ => confined_pure trivial

/-- Entering a function puts its locals on the data stack. -/
theorem confined_enter (functionIndex : UInt32) (f : Function) {arguments : List Value}
    (harguments : ∀ v ∈ arguments, P v) (hlocals : ∀ type ∈ f.locals, P (.zero type)) :
    Confined P (enter functionIndex f arguments) := by
  have hzeros : ∀ v ∈ f.locals.map Value.zero, P v := by
    intro v hv
    obtain ⟨type, htype, rfl⟩ := List.mem_map.1 hv
    exact hlocals type htype
  have hget : Confined P (get : Exec Thread) := fun _ h => ⟨trivial, h⟩
  exact confined_bind (confined_pushAll harguments) fun _ _ =>
    confined_bind (confined_pushAll hzeros) fun _ _ =>
      confined_bind hget fun _ _ =>
        confined_bind (confined_pushCall _) fun _ _ => confined_jump _

end Exec

open Exec Stack in
/-- Every instruction keeps to values with a property that all `i32` have: it makes
no others. -/
theorem Opcode.confined_exec {P : Value → Prop} (hi32 : ∀ n, P (.i32 n)) (op : Opcode) : Confined P op.exec := by
  cases op with
  | unreachable => exact confined_throw trivial
  | nop => exact confined_bind confined_advance fun _ _ => confined_pure trivial
  | endBody => exact confined_endBody
  | drop =>
    exact confined_bind confined_advance fun _ _ =>
      confined_bind (confined_requireOperands 1) fun _ _ =>
        confined_bind (confined_onData confined_pop) fun _ _ => confined_pure trivial
  | localGet =>
    exact confined_bind confined_advance fun _ _ =>
      confined_bind confined_unsignedOperand fun x _ =>
        confined_bind (confined_localIndex x) fun i _ =>
          confined_bind (confined_onData (confined_peek i)) fun _ hv =>
            confined_bind (confined_onData (confined_push hv)) fun _ _ => confined_pure trivial
  | localSet =>
    exact confined_bind confined_advance fun _ _ =>
      confined_bind confined_unsignedOperand fun x _ =>
        confined_bind (confined_requireOperands 1) fun _ _ =>
          confined_bind (confined_onData confined_pop) fun _ hv =>
            confined_bind (confined_localIndex x) fun i _ =>
              confined_bind (confined_onData (confined_poke i hv)) fun _ _ => confined_pure trivial
  | localTee =>
    exact confined_bind confined_advance fun _ _ =>
      confined_bind confined_unsignedOperand fun x _ =>
        confined_bind (confined_requireOperands 1) fun _ _ =>
          confined_bind (confined_onData (confined_peek 0)) fun _ hv =>
            confined_bind (confined_localIndex x) fun i _ =>
              confined_bind (confined_onData (confined_poke i hv)) fun _ _ => confined_pure trivial
  | i32Const =>
    exact confined_bind confined_advance fun _ _ =>
      confined_bind confined_signedOperand fun n _ =>
        confined_bind (confined_onData (confined_push (hi32 n))) fun _ _ => confined_pure trivial
  | i32Add => exact confined_binary hi32 _
  | i32Sub => exact confined_binary hi32 _
  | i32Mul => exact confined_binary hi32 _

/-! ## Runs -/

namespace Thread

variable {budget : Option Nat} {t t' : Thread} {P : Value → Prop}

theorem values_new (P : Value → Prop) (dataCapacity callCapacity : Nat) :
    (new dataCapacity callCapacity).data.All P := by
  intro v hv
  cases Array.not_mem_empty v hv

theorem mismatches_of_fetch {trap : Trap} (h : t.fetch budget = .error trap) : trap.Mismatches P := by
  rw [fetch] at h
  split at h
  · cases h
    exact trivial
  · split at h
    · cases h
      exact trivial
    · split at h <;> cases h
      exact trivial

theorem values_turn (hi32 : ∀ n, P (.i32 n)) (h : t.data.All P) (budget : Option Nat) :
    (t.turn budget).thread.data.All P := by
  rw [turn]
  cases t.fetch budget with
  | error trap => exact h
  | ok op =>
    show (t.dispatch op).thread.data.All P
    rw [thread_dispatch]
    exact (op.confined_exec hi32).stateAfter h

theorem mismatches_of_turn (hi32 : ∀ n, P (.i32 n)) (h : t.data.All P) {fault : Fault}
    (hturn : t.turn budget = .stop (.error fault) t') : fault.trap.Mismatches P := by
  have hcounted : t.counted.data.All P := h
  have hturned := turned budget t
  rw [hturn] at hturned
  cases hturned with
  | refused hfetch => exact mismatches_of_fetch hfetch
  | trapped hfetch hexec => exact ((Opcode.confined_exec hi32 _).of_error hcounted hexec).1

/-- The states of a run, the one it starts in and the one it ends in included. -/
inductive Visits (budget : Option Nat) : Thread → Thread → Prop
  | start (t : Thread) : Visits budget t t
  | more {t t' visited : Thread} : t.turn budget = .more t' → Visits budget t' visited → Visits budget t visited
  | stop {t t' : Thread} {outcome : Except Fault Unit} : t.turn budget = .stop outcome t' → Visits budget t t'

theorem visits_run (budget : Option Nat) (t : Thread) : t.Visits budget (t.run budget).2 := by
  induction t using run.induct budget with
  | case1 t t' hturn ih =>
    rw [run_of_more hturn]
    exact .more hturn ih
  | case2 t outcome t' hturn =>
    rw [run_of_stop hturn]
    exact .stop hturn

theorem values_of_visits (hi32 : ∀ n, P (.i32 n)) {visited : Thread} (h : t.Visits budget visited)
    (ht : t.data.All P) : visited.data.All P := by
  induction h with
  | start => exact ht
  | @more t t' visited hturn _ ih =>
    have hvalues := values_turn hi32 ht budget
    rw [hturn] at hvalues
    exact ih hvalues
  | @stop t t' outcome hturn =>
    have hvalues := values_turn hi32 ht budget
    rw [hturn] at hvalues
    exact hvalues

theorem mismatches_of_run (hi32 : ∀ n, P (.i32 n)) (ht : t.data.All P) {fault : Fault}
    (hrun : (t.run budget).1 = .error fault) : fault.trap.Mismatches P := by
  induction t using run.induct budget with
  | case1 t t' hturn ih =>
    have hvalues := values_turn hi32 ht budget
    rw [hturn] at hvalues
    rw [run_of_more hturn] at hrun
    exact ih hvalues hrun
  | case2 t outcome t' hturn =>
    rw [run_of_stop hturn] at hrun
    rw [show outcome = .error fault from hrun] at hturn
    exact mismatches_of_turn hi32 ht hturn

end Thread

/-! ## Executions -/

namespace Interpreter

variable {vm : Interpreter} {m : Module} {c : Config} {index : UInt32} {f : Function} {arguments : List Int32}

/-- The states of a call: a new thread, what entering the function makes of it,
whether it succeeds or not, and the states of the run. -/
inductive Visits (vm : Interpreter) (index : UInt32) (f : Function) (arguments : List Int32) : Thread → Prop
  | new : Visits vm index f arguments (.new vm.dataCapacity vm.callCapacity)
  | entered : Visits vm index f arguments
      (stateAfter (Exec.enter index f (arguments.map .i32)) (.new vm.dataCapacity vm.callCapacity))
  | run {t visited : Thread} : vm.enter index f arguments = .ok t → t.Visits vm.maxInstructions visited →
      Visits vm index f arguments visited

theorem confined_enter (index : UInt32) (f : Function) (arguments : List Int32) :
    Exec.Confined (Value.OfLocals f.locals) (Exec.enter index f (arguments.map .i32)) := by
  refine Exec.confined_enter index f (fun v hv => ?_) fun type => .zero
  obtain ⟨n, -, rfl⟩ := List.mem_map.1 hv
  exact .i32 n

theorem values_of_enter {t : Thread} (h : vm.enter index f arguments = .ok t) :
    t.data.All (Value.OfLocals f.locals) := by
  rw [enter] at h
  split at h
  · next hok =>
    cases h
    exact ((confined_enter index f arguments).of_ok (Thread.values_new _ _ _) hok).2
  · cases h

theorem mismatches_of_enter {fault : Fault} (h : vm.enter index f arguments = .error fault) :
    fault.trap.Mismatches (Value.OfLocals f.locals) := by
  rw [enter] at h
  split at h
  · cases h
  · next herror =>
    cases h
    exact ((confined_enter index f arguments).of_error (Thread.values_new _ _ _) herror).1

theorem values_of_visits {visited : Thread} (h : vm.Visits index f arguments visited) :
    visited.data.All (Value.OfLocals f.locals) := by
  cases h with
  | new => exact Thread.values_new _ _ _
  | entered => exact (confined_enter index f arguments).stateAfter (Thread.values_new _ _ _)
  | run henter hvisits => exact Thread.values_of_visits .i32 hvisits (values_of_enter henter)

/-- The results of an execution are the values in its last state. -/
theorem exists_visits_of_execute (hstart : m.startFunction c.startFunction = .ok (index, f)) {r : ExecutionResult}
    (h : vm.execute m c = .ok r) : ∃ t, vm.Visits index f c.initialValues t ∧ r.values = t.results := by
  cases henter : vm.enter index f c.initialValues with
  | error fault =>
    rw [execute_of_startFunction hstart, call, henter] at h
    cases h
  | ok t =>
    rw [execute_of_enter hstart henter] at h
    have hvisits := t.visits_run vm.maxInstructions
    rcases hrun : t.run vm.maxInstructions with ⟨fault | _, t'⟩
    · rw [hrun] at h
      cases h
    · rw [hrun] at h hvisits
      cases h
      exact ⟨t', .run henter hvisits, rfl⟩

theorem mismatches_of_execute (hstart : m.startFunction c.startFunction = .ok (index, f)) {fault : Fault}
    (h : vm.execute m c = .error (.fault fault)) : fault.trap.Mismatches (Value.OfLocals f.locals) := by
  cases henter : vm.enter index f c.initialValues with
  | error fault' =>
    rw [execute_of_startFunction hstart, call, henter] at h
    cases h
    exact mismatches_of_enter henter
  | ok t =>
    rw [execute_of_enter hstart henter] at h
    rcases hrun : t.run vm.maxInstructions with ⟨fault' | _, t'⟩
    · rw [hrun] at h
      cases h
      exact Thread.mismatches_of_run .i32 (values_of_enter henter) (congrArg Prod.fst hrun)
    · rw [hrun] at h
      cases h

/-- In every state of an execution, each value on the data stack is an `i32` or the
zero of a local that the function declares, and so is each value that it returns.
So where a type is not the one that is needed, it is a declared one and not `i32`; a
function that declares no other locals than `i32` does not fault in this way, and
returns nothing else. -/
theorem values_of_execute (vm : Interpreter) {m : Module} {c : Config} {index : UInt32} {f : Function}
    (hstart : m.startFunction c.startFunction = .ok (index, f)) :
    (∀ t, vm.Visits index f c.initialValues t → ∀ v ∈ t.data.items, v.OfLocals f.locals) ∧
    (∀ r, vm.execute m c = .ok r → ∀ v ∈ r.values, v.OfLocals f.locals) ∧
    (∀ fault expected actual, vm.execute m c = .error (.fault fault) →
      fault.trap = .typeMismatch expected actual → expected = .i32 ∧ actual ∈ f.locals ∧ actual ≠ .i32) ∧
    ((∀ type ∈ f.locals, type = .i32) →
      (∀ fault expected actual, vm.execute m c = .error (.fault fault) →
        fault.trap ≠ .typeMismatch expected actual) ∧
      ∀ r, vm.execute m c = .ok r → ∀ v ∈ r.values, ∃ n, v = .i32 n) := by
  have hvalues : ∀ r, vm.execute m c = .ok r → ∀ v ∈ r.values, v.OfLocals f.locals := by
    intro r hr v hv
    obtain ⟨t, hvisits, hresults⟩ := exists_visits_of_execute hstart hr
    rw [hresults, Thread.results, Stack.toListTopFirst, List.mem_reverse, Array.mem_toList_iff] at hv
    exact values_of_visits hvisits v hv
  have hmismatch : ∀ fault expected actual, vm.execute m c = .error (.fault fault) →
      fault.trap = .typeMismatch expected actual → expected = .i32 ∧ actual ∈ f.locals ∧ actual ≠ .i32 := by
    intro fault expected actual hfault htrap
    have hmismatches := mismatches_of_execute hstart hfault
    rw [htrap] at hmismatches
    obtain ⟨hexpected, hne, v, hv, rfl⟩ := hmismatches
    exact ⟨hexpected, hv.type_mem hne, hne⟩
  refine ⟨fun t hvisits => values_of_visits hvisits, hvalues, hmismatch, fun hlocals => ⟨?_, ?_⟩⟩
  · intro fault expected actual hfault htrap
    obtain ⟨-, hmem, hne⟩ := hmismatch fault expected actual hfault htrap
    exact hne (hlocals actual hmem)
  · intro r hr v hv
    exact (hvalues r hr v hv).exists_i32 hlocals

/-- A zero of another type is stored in the place of an argument, and found there
where an `i32` is needed. Without the addition the function returns it. A function
with `i32` for a local returns it as one. -/
theorem values_of_execute_zeros :
    let f : Function := ⟨[.i64, .f32], [0x20, 0x02, 0x21, 0x00, 0x20, 0x00, 0x41, 0x01, 0x6a, 0x0b]⟩
    let g : Function := ⟨[.i64, .f32], [0x20, 0x02, 0x21, 0x00, 0x20, 0x00, 0x41, 0x01, 0x0b]⟩
    let h : Function := ⟨[.i32], [0x20, 0x01, 0x0b]⟩
    let m (f : Function) := Module.ofSections "m" [.exports [⟨"f", .func, 0⟩], .code [f]]
    let c : Config := ⟨"f", [5], 8, 1, none⟩
    let vm : Interpreter := ⟨8, 1, none⟩
    vm.execute (m f) c = .error (.fault ⟨0, 8, .typeMismatch .i32 .f32⟩) ∧ .f32 ∈ f.locals ∧
      vm.execute (m g) c = .ok ⟨[.i32 1, .f32 0], 5⟩ ∧ (Value.f32 0).OfLocals g.locals ∧
      vm.execute (m h) c = .ok ⟨[.i32 0], 2⟩ ∧ ∀ r, vm.execute (m h) c = .ok r → ∀ v ∈ r.values, ∃ n, v = .i32 n := by
  intro f g h m c vm
  have hstart : ∀ f, (m f).startFunction c.startFunction = .ok (0, f) := fun f =>
    Module.startFunction_ofSections "m" "f" rfl
  have hexecute : ∀ f result, vm.call 0 f c.initialValues = result →
      vm.execute (m f) c = result.mapError .fault := by
    intro f result hcall
    rw [execute_of_startFunction (hstart f), hcall]
  have hf := hexecute f (.error ⟨0, 8, .typeMismatch .i32 .f32⟩) (by decide +kernel)
  have hg := hexecute g (.ok ⟨[.i32 1, .f32 0], 5⟩) (by decide +kernel)
  have hh := hexecute h (.ok ⟨[.i32 0], 2⟩) (by decide +kernel)
  refine ⟨hf, ?_, hg, ?_, hh, ?_⟩
  · exact ((values_of_execute vm (hstart f)).2.2.1 _ _ _ hf rfl).2.1
  · exact (values_of_execute vm (hstart g)).2.1 _ hg _ (by simp)
  · exact ((values_of_execute vm (hstart h)).2.2.2 (by decide)).2

end Interpreter

end StackVm
