import Mathlib.Data.List.Basic
import StackVm.Proofs.Machine.Isolation
import StackVm.Proofs.Module.Lookup

/-!
# Control flow does not depend on data

Which instructions a body holds, and where each of them starts, can be read off
its bytes (`outline`). A run of the body goes through them in order; what is on
the stacks, how much room there is and how large the budget is decide only how
far it gets. So two runs of a function on whatever arguments dispatch the same
instructions as far as both get, and if both succeed they execute as many and
return as many values (`Interpreter.dispatches_alike`).

* `Opcode.reach`, `Opcode.effect`: how far an instruction takes the pointer, and
  how many operands more there are after it;
* `Activation.reaches_of_exec`: so much is the same whatever the operands and
  locals are;
* `SplitThread.follows_within`: a run goes along the outline, and to its end if
  it succeeds.
-/

namespace StackVm

/-! ## Bodies -/

namespace Opcode

/-- How many bytes after an instruction the next one starts, if there is one to
go on with; `rest` are the bytes behind its opcode. -/
def reach (rest : List UInt8) : Opcode → Option Nat
  | unreachable | endBody => none
  | localGet | localSet | localTee | i32Const => (Leb128.read rest).map fun g => 1 + g.size
  | nop | drop | i32Add | i32Sub | i32Mul => some 1

/-- How many operands more there are after an instruction. -/
def effect : Opcode → Int
  | unreachable | nop | endBody | localTee => 0
  | localGet | i32Const => 1
  | drop | localSet | i32Add | i32Sub | i32Mul => -1

theorem reach_pos {rest : List UInt8} {op : Opcode} {n : Nat} (h : op.reach rest = some n) : 0 < n := by
  cases op with
  | unreachable | endBody => cases h
  | nop | drop | i32Add | i32Sub | i32Mul =>
    cases h
    decide
  | localGet | localSet | localTee | i32Const =>
    obtain ⟨g, -, rfl⟩ := Option.map_eq_some_iff.1 h
    omega

end Opcode

/-- The instructions that bytes hold one after another, each with the place
where it starts; the bytes start at `cursor`. -/
def outline (cursor : Nat) (bytes : List UInt8) : List (Nat × Opcode) :=
  match bytes with
  | [] => []
  | b :: rest =>
    match Opcode.ofByte? b with
    | none => []
    | some op =>
      match _h : op.reach rest with
      | none => [(cursor, op)]
      | some n => (cursor, op) :: outline (cursor + n) ((b :: rest).drop n)
termination_by bytes.length
decreasing_by
  have := Opcode.reach_pos _h
  rw [List.length_drop, List.length_cons]
  omega

theorem outline_cons {b : UInt8} {op : Opcode} (hop : Opcode.ofByte? b = some op) (cursor : Nat)
    (rest : List UInt8) : outline cursor (b :: rest) =
      (cursor, op) :: (op.reach rest).elim [] fun n => outline (cursor + n) ((b :: rest).drop n) := by
  rw [outline, hop]
  simp only
  split
  · next h => rw [h]; rfl
  · next n h => rw [h]; rfl

/-- No instruction stands before the start, and each stands behind those before
it. -/
theorem outline_sorted (cursor : Nat) (bytes : List UInt8) :
    (∀ i ∈ outline cursor bytes, cursor ≤ i.1) ∧ (outline cursor bytes).Pairwise (·.1 < ·.1) := by
  fun_induction outline cursor bytes with
  | case1 | case2 => simp
  | case3 cursor b rest op hop hreach => simp
  | case4 cursor b rest op hop n hreach ih =>
    have hpos := Opcode.reach_pos hreach
    obtain ⟨hle, hsorted⟩ := ih
    refine ⟨?_, List.pairwise_cons.2 ⟨fun i hi => ?_, hsorted⟩⟩
    · intro i hi
      rcases List.mem_cons.1 hi with rfl | hi
      · exact Nat.le_refl _
      · have := hle i hi
        omega
    · have := hle i hi
      show cursor < i.1
      omega

example : outline 0 [0x20, 0x00, 0x41, 0x83, 0x00, 0x6a, 0x0b, 0x01] =
    [(0, .localGet), (2, .i32Const), (5, .i32Add), (6, .endBody)] := by
  decide +kernel

/-- The first instruction, if there is one, stands at the start. -/
theorem fst_head_outline {cursor : Nat} {bytes : List UInt8} {i : Nat × Opcode} {others : List (Nat × Opcode)}
    (h : outline cursor bytes = i :: others) : i.1 = cursor := by
  cases bytes with
  | nil => simp [outline] at h
  | cons b rest =>
    cases hop : Opcode.ofByte? b with
    | none => simp [outline, hop] at h
    | some op =>
      rw [outline_cons hop] at h
      cases h
      rfl

/-- How many operands more there are after instructions. -/
def totalEffect : List (Nat × Opcode) → Int
  | [] => 0
  | (_, op) :: others => op.effect + totalEffect others

/-- The instructions from a pointer on. -/
def Pointer.outline (p : Pointer) : List (Nat × Opcode) :=
  StackVm.outline p.cursor p.rest

theorem Pointer.outline_eq {p : Pointer} {b : UInt8} {rest : List UInt8} {op : Opcode}
    (hrest : p.rest = b :: rest) (hop : Opcode.ofByte? b = some op) : p.outline =
      (p.cursor, op) :: (op.reach rest).elim [] fun n => (p.advance n).outline := by
  rw [outline, hrest, outline_cons hop, ← hrest]
  rfl

/-! ## Instructions -/

namespace Activation

variable {room : Except Trap Unit} {a a' : Activation} {made : Option Activation} {rest : List UInt8} {b : UInt8}

/-- What becomes of an activation in front of `rest` that executes `op`, as far
as the outline tells. -/
def Reaches (rest : List UInt8) (a : Activation) (op : Opcode) : Option Activation → Prop
  | none => op = .endBody
  | some a' => (∃ n, op.reach rest = some n ∧ a'.pointer = a.pointer.advance n) ∧
      (a'.operands.length : Int) = a.operands.length + op.effect

theorem exists_of_immediate_bind {β : Type} {next : Leb128.Groups × Activation → Except Trap β} {made : β}
    (hrest : a.pointer.rest = b :: rest) (h : (a.immediate >>= next) = .ok made) :
    ∃ g, Leb128.read rest = some g ∧ next (g, a.skip (1 + g.size)) = .ok made := by
  have hskip : (a.skip 1).pointer.rest = rest := by
    show a.pointer.rest.drop 1 = rest
    rw [hrest]
    rfl
  rw [immediate, hskip] at h
  cases hread : Leb128.read rest with
  | none =>
    rw [hread] at h
    cases h
  | some g =>
    rw [hread] at h
    refine ⟨g, rfl, ?_⟩
    rw [skip, ← Pointer.advance_advance]
    exact h

theorem eq_of_room_bind (h : (do room; return some a') = Except.ok made) : made = some a' := by
  cases room with
  | error trap => cases h
  | ok _ => exact (Except.ok.inj h).symm

theorem reaches_of_binary {operator : Int32 → Int32 → Int32} {op : Opcode} (hreach : op.reach rest = some 1)
    (heffect : op.effect = -1) (h : some <$> a.binary operator = .ok made) : a.Reaches rest op made := by
  rw [binary] at h
  rcases hoperands : a.operands with _ | ⟨v₂, _ | ⟨v₁, operands⟩⟩
  · rw [hoperands] at h
    cases h
  · rw [hoperands] at h
    cases h
  · rw [hoperands] at h
    cases v₂ <;> cases v₁ <;> cases h
    refine ⟨⟨1, hreach, rfl⟩, ?_⟩
    simp only [hoperands, heffect, List.length_cons]
    omega

/-- Where an instruction leads, and what it does to the number of operands, does
not depend on values. -/
theorem reaches_of_exec {op : Opcode} (hrest : a.pointer.rest = b :: rest)
    (h : a.exec room op = .ok made) : a.Reaches rest op made := by
  -- with a number behind it, an instruction reaches as far as the number
  have hreach : ∀ {op : Opcode} {g : Leb128.Groups}, Leb128.read rest = some g →
      (op.reach rest = (Leb128.read rest).map fun g => 1 + g.size) → op.reach rest = some (1 + g.size) := by
    intro op g hread hop
    rw [hop, hread, Option.map_some]
  cases op with
  | unreachable => cases h
  | endBody =>
    cases h
    rfl
  | nop =>
    cases h
    exact ⟨⟨1, rfl, rfl⟩, (Int.add_zero _).symm⟩
  | drop =>
    simp only [exec] at h
    split at h
    · cases h
    · next v operands hoperands =>
      cases h
      refine ⟨⟨1, rfl, rfl⟩, ?_⟩
      simp only [hoperands, List.length_cons, Opcode.effect]
      omega
  | localGet =>
    obtain ⟨g, hread, h⟩ := exists_of_immediate_bind hrest h
    simp only at h
    split at h
    · cases h
    · cases eq_of_room_bind h
      exact ⟨⟨_, hreach hread rfl, rfl⟩, by simp [Opcode.effect, skip]⟩
  | localSet =>
    obtain ⟨g, hread, h⟩ := exists_of_immediate_bind hrest h
    simp only at h
    split at h
    · cases h
    · next v operands hoperands =>
      split at h
      · cases h
        replace hoperands : a.operands = v :: operands := hoperands
        refine ⟨⟨_, hreach hread rfl, rfl⟩, ?_⟩
        simp only [hoperands, List.length_cons, Opcode.effect]
        omega
      · cases h
  | localTee =>
    obtain ⟨g, hread, h⟩ := exists_of_immediate_bind hrest h
    simp only at h
    split at h
    · cases h
    · split at h
      · cases h
        exact ⟨⟨_, hreach hread rfl, rfl⟩, (Int.add_zero _).symm⟩
      · cases h
  | i32Const =>
    obtain ⟨g, hread, h⟩ := exists_of_immediate_bind hrest h
    cases eq_of_room_bind h
    exact ⟨⟨_, hreach hread rfl, rfl⟩, by simp [Opcode.effect, skip]⟩
  | i32Add | i32Sub | i32Mul => exact reaches_of_binary rfl rfl h

end Activation

/-! ## Events -/

/-- The instruction that an event tells of, if it is dispatched. -/
def Event.dispatched? : Event → Option (Nat × Opcode)
  | dispatch _ cursor op => some (cursor, op)
  | _ => none

namespace Thread

variable {budget : Option Nat} {t t' : Thread} {op : Opcode}

theorem logFrom_eq (budget : Option Nat) (t : Thread) (done : Array Event) :
    (t.logFrom budget done).toList = done.toList ++ t.log budget := by
  induction t using run.induct budget generalizing done with
  | case1 t t' h ih =>
    rw [log, logFrom, logFrom, h]
    simp [ih]
  | case2 t outcome t' h =>
    rw [log, logFrom, logFrom, h]
    simp

theorem log_of_more (h : t.turn budget = .more t') :
    t.log budget = t.turnEvents budget ++ t'.log budget := by
  rw [log, logFrom, h]
  simp only
  rw [logFrom_eq]
  simp

theorem log_of_stop {outcome : Except Fault Unit} (h : t.turn budget = .stop outcome t') :
    t.log budget = t.turnEvents budget := by
  rw [log, logFrom, h]
  simp

/-- An instruction is dispatched if one is fetched, and where it stands. -/
theorem dispatched_turnEvents (budget : Option Nat) (t : Thread) :
    (t.turnEvents budget).filterMap Event.dispatched? =
      (t.fetch budget).toOption.toList.map (t.current.cursor, ·) := by
  rw [turnEvents]
  cases t.fetch budget with
  | error trap => rfl
  | ok op =>
    simp only
    split
    · split <;> rfl
    · rfl
    · rfl

theorem fetch_eq_ok_iff : t.fetch budget = .ok op ↔
    ¬ budget.any (· ≤ t.executed) ∧ ∃ b, t.current.current? = some b ∧ Opcode.ofByte? b = some op := by
  rw [fetch]
  split
  · next h => simp [h]
  · next h =>
    cases t.current.current? with
    | none => simp
    | some b => cases hop : Opcode.ofByte? b <;> simp [h, hop]

theorem turn_of_fetch_error {trap : Trap} (h : t.fetch budget = .error trap) :
    t.turn budget = .stop (.error (t.current.fault trap)) t := by
  rw [turn, h]

theorem turn_eq_of_fetch (h : t.fetch budget = .ok op) : t.turn budget = t.turn none := by
  have hnone : t.fetch none = .ok op := fetch_eq_ok_iff.2 ⟨by simp, (fetch_eq_ok_iff.1 h).2⟩
  rw [turn, turn, h, hnone]

/-! ## Runs -/

/-- The instructions that a run dispatches, each with the place where it
stands. -/
def dispatched (budget : Option Nat) (t : Thread) : List (Nat × Opcode) :=
  (t.log budget).filterMap Event.dispatched?

theorem dispatched_of_more (h : t.turn budget = .more t') : t.dispatched budget =
    (t.fetch budget).toOption.toList.map (t.current.cursor, ·) ++ t'.dispatched budget := by
  rw [dispatched, log_of_more h, List.filterMap_append, dispatched_turnEvents]
  rfl

theorem dispatched_of_stop {outcome : Except Fault Unit} (h : t.turn budget = .stop outcome t') :
    t.dispatched budget = (t.fetch budget).toOption.toList.map (t.current.cursor, ·) := by
  rw [dispatched, log_of_stop h, dispatched_turnEvents]

/-- A run that starts with so many operands goes along the instructions: it
dispatches the first of them, and if it succeeds all of them, which decide how
many values it returns. -/
structure Follows (budget : Option Nat) (t : Thread) (operands : Nat) (instructions : List (Nat × Opcode)) :
    Prop where
  along : t.dispatched budget <+: instructions
  complete : ∀ t', t.run budget = (.ok (), t') → t.dispatched budget = instructions ∧
    t'.executed = t.executed + instructions.length ∧
    (t'.results.length : Int) = operands + totalEffect instructions

variable {operands operands' : Nat} {instructions : List (Nat × Opcode)}

theorem follows_of_fault {fault : Fault} (hturn : t.turn budget = .stop (.error fault) t')
    (h : (t.fetch budget).toOption.toList.map (t.current.cursor, ·) <+: instructions) :
    t.Follows budget operands instructions where
  along := by rwa [dispatched_of_stop hturn]
  complete t'' hrun := by
    rw [run_of_stop hturn] at hrun
    cases hrun

theorem follows_of_return (hturn : t.turn budget = .stop (.ok ()) t') (hop : t.fetch budget = .ok .endBody)
    (hexecuted : t'.executed = t.executed + 1) (hresults : t'.results.length = operands) :
    t.Follows budget operands [(t.current.cursor, .endBody)] := by
  have hdispatched : t.dispatched budget = [(t.current.cursor, .endBody)] := by
    rw [dispatched_of_stop hturn, hop]
    rfl
  refine ⟨hdispatched ▸ List.prefix_refl _, fun t'' hrun => ⟨hdispatched, ?_⟩⟩
  rw [run_of_stop hturn] at hrun
  cases hrun
  exact ⟨hexecuted, by simp [hresults, totalEffect, Opcode.effect]⟩

theorem Follows.cons (h : t'.Follows budget operands' instructions) (hturn : t.turn budget = .more t')
    (hop : t.fetch budget = .ok op) (hexecuted : t'.executed = t.executed + 1)
    (hoperands : (operands' : Int) = operands + op.effect) :
    t.Follows budget operands ((t.current.cursor, op) :: instructions) := by
  have hdispatched : t.dispatched budget = (t.current.cursor, op) :: t'.dispatched budget := by
    rw [dispatched_of_more hturn, hop]
    rfl
  refine ⟨hdispatched ▸ List.cons_prefix_cons.2 ⟨rfl, h.along⟩, fun t'' hrun => ?_⟩
  rw [run_of_more hturn] at hrun
  obtain ⟨hall, hexecuted', hresults⟩ := h.complete t'' hrun
  refine ⟨hdispatched.trans (congrArg _ hall), ?_, ?_⟩
  · rw [hexecuted', hexecuted, List.length_cons]
    omega
  · rw [hresults, hoperands, totalEffect, Int.add_assoc]

end Thread

namespace SplitThread

variable {m : SplitThread} {budget : Option Nat} {a : Activation}

theorem exists_rest_of_fetch {rest : List Activation} {op : Opcode}
    (h : (m.within rest a).fetch budget = .ok op) :
    ∃ b bytes, a.pointer.rest = b :: bytes ∧ Opcode.ofByte? b = some op := by
  obtain ⟨-, b, hcurrent, hop⟩ := Thread.fetch_eq_ok_iff.1 h
  obtain ⟨bytes, hbytes⟩ := List.head?_eq_some_iff.1 hcurrent
  exact ⟨b, bytes, hbytes, hop⟩

/-- A call that the host made goes along the outline of its body, whatever its
locals and operands are. The induction is on what is left to execute. -/
theorem follows_within (budget : Option Nat) (h : (m.within [] a).LaidOut) :
    (m.within [] a).Follows budget (a.operands.length + m.host.length) a.pointer.outline := by
  induction hleft : (m.within [] a).left using Nat.strongRecOn generalizing m a with
  | _ left ih =>
  cases hop : (m.within [] a).fetch budget with
  | error trap => exact Thread.follows_of_fault (Thread.turn_of_fetch_error hop) (hop ▸ List.nil_prefix)
  | ok op =>
    obtain ⟨b, bytes, hbytes, hopcode⟩ := exists_rest_of_fetch hop
    have hturn := turn_within (length_le_of_laidOut h)
    rw [← Thread.turn_eq_of_fetch hop, Activation.next_of_opcode hbytes hopcode] at hturn
    -- what is fetched heads the outline, and what it makes of the call says how the run goes on
    rw [Pointer.outline_eq hbytes hopcode]
    rcases hmade : a.exec (m.roomFor [] a) op with trap | _ | a'
    · rw [hmade] at hturn
      obtain ⟨t, ht⟩ := hturn
      refine Thread.follows_of_fault ht ?_
      rw [hop]
      exact List.cons_prefix_cons.2 ⟨rfl, List.nil_prefix⟩
    · rw [hmade] at hturn
      obtain rfl : op = .endBody := Activation.reaches_of_exec hbytes hmade
      refine Thread.follows_of_return hturn hop rfl ?_
      rw [results_flatten, leave, values_give]
      exact List.length_append
    · rw [hmade] at hturn
      obtain ⟨⟨n, hreach, hpointer⟩, hoperands⟩ := Activation.reaches_of_exec hbytes hmade
      have hlt := Thread.left_turn hturn
      have hkeeps := h.keeps_turn budget
      rw [show (m.within [] a).turn budget = _ from hturn] at hkeeps
      rw [hreach, Option.elim_some, ← hpointer]
      refine (ih _ (hleft ▸ hlt) hkeeps.laidOut rfl).cons hturn hop rfl ?_
      show ((a'.operands.length + m.host.length : Nat) : Int) = _
      omega

end SplitThread

/-! ## Executions -/

namespace Interpreter

variable {vm : Interpreter} {m : Module} {c : Config} {index : UInt32} {f : Function}

/-- A function that was entered is the only call of its thread. -/
theorem eq_within_of_enter {arguments : List Int32} {t : Thread} (h : vm.enter index f arguments = .ok t) :
    t.LaidOut ∧ t = (SplitThread.new vm.dataCapacity vm.callCapacity).within []
      ⟨.start index f.body, Exec.localsOf f (arguments.map .i32), []⟩ := by
  have hentered : Exec.enter index f (arguments.map .i32) (.new vm.dataCapacity vm.callCapacity) = .ok () t := by
    rw [enter] at h
    split at h
    · next ht => exact ht.trans (congrArg _ (Except.ok.inj h))
    · cases h
  have hlaidOut := ((Thread.laidOut_new vm.dataCapacity vm.callCapacity).keeps_enter index f
    (arguments.map .i32)).laidOut
  rw [stateAfter_of_ok hentered] at hlaidOut
  refine ⟨hlaidOut, ?_⟩
  have hflatten := SplitThread.enter_flatten index f (arguments.map .i32)
    (.new vm.dataCapacity vm.callCapacity)
  rw [SplitThread.enter] at hflatten
  replace hflatten := hentered.symm.trans hflatten
  split_ifs at hflatten
  cases hflatten
  rfl

/-- What a run goes along, once a function is entered. -/
theorem follows_of_enter {arguments : List Int32} {t : Thread} (h : vm.enter index f arguments = .ok t)
    (budget : Option Nat) : t.executed = 0 ∧ t.Follows budget 0 (outline 0 f.body) := by
  obtain ⟨hlaidOut, rfl⟩ := eq_within_of_enter h
  exact ⟨rfl, SplitThread.follows_within budget hlaidOut⟩

/-- The instructions that an execution dispatches, each with the place where it
stands. -/
def dispatched (vm : Interpreter) (m : Module) (c : Config) : List (Nat × Opcode) :=
  (vm.log m c).filterMap Event.dispatched?

theorem dispatched_eq (vm : Interpreter) (hstart : m.startFunction c.startFunction = .ok (index, f)) :
    vm.dispatched m c =
      match vm.enter index f c.initialValues with
      | .error _ => []
      | .ok t => t.dispatched vm.maxInstructions := by
  have hparameters : (parameterEvents m c index).filterMap Event.dispatched? = [] := by
    rw [parameterEvents]
    split
    · rfl
    · split <;> rfl
  rw [dispatched, log, hstart, List.filterMap_append, hparameters, callEvents]
  cases henter : vm.enter index f c.initialValues with
  | error fault => rfl
  | ok t =>
    simp only [List.nil_append]
    show (t.log vm.maxInstructions ++ _).filterMap Event.dispatched? = t.dispatched vm.maxInstructions
    rw [List.filterMap_append]
    cases vm.call index f c.initialValues <;> exact List.append_nil _

/-- An execution goes along the outline of the body, and to its end if it
succeeds. -/
theorem dispatched_outline (vm : Interpreter) (hstart : m.startFunction c.startFunction = .ok (index, f)) :
    vm.dispatched m c <+: outline 0 f.body ∧
    ∀ r, vm.execute m c = .ok r → vm.dispatched m c = outline 0 f.body ∧
      r.executed = (outline 0 f.body).length ∧
      (r.values.length : Int) = totalEffect (outline 0 f.body) := by
  rw [dispatched_eq vm hstart, execute_of_startFunction hstart, call]
  cases henter : vm.enter index f c.initialValues with
  | error fault => exact ⟨List.nil_prefix, fun r hr => by cases hr⟩
  | ok t =>
    obtain ⟨hexecuted, hfollows⟩ := follows_of_enter henter vm.maxInstructions
    refine ⟨hfollows.along, fun r hr => ?_⟩
    simp only at hr ⊢
    rcases hrun : t.run vm.maxInstructions with ⟨_ | _, t'⟩
    · rw [hrun] at hr
      cases hr
    · rw [hrun] at hr
      cases hr
      obtain ⟨hall, hcount, hresults⟩ := hfollows.complete t' hrun
      refine ⟨hall, ?_, ?_⟩
      · rw [hcount, hexecuted, Nat.zero_add]
      · rw [hresults]
        simp

/-- Two executions of a function, with whatever arguments, capacities and
budgets: both dispatch instructions from the start of the body onwards, in the
same places as far as both get, and if both succeed they execute as many and
return as many values. -/
theorem dispatches_alike {m₁ m₂ : Module} {c₁ c₂ : Config} {index₁ index₂ : UInt32} {f : Function}
    (vm₁ vm₂ : Interpreter) (h₁ : m₁.startFunction c₁.startFunction = .ok (index₁, f))
    (h₂ : m₂.startFunction c₂.startFunction = .ok (index₂, f)) :
    let cursors₁ := (vm₁.dispatched m₁ c₁).map Prod.fst
    let cursors₂ := (vm₂.dispatched m₂ c₂).map Prod.fst
    (∀ cursors ∈ [cursors₁, cursors₂],
      cursors.Pairwise (· < ·) ∧ (cursors ≠ [] → cursors.head? = some 0)) ∧
    (cursors₁ <+: cursors₂ ∨ cursors₂ <+: cursors₁) ∧
    ∀ r₁ r₂, vm₁.execute m₁ c₁ = .ok r₁ → vm₂.execute m₂ c₂ = .ok r₂ →
      r₁.executed = cursors₁.length ∧ cursors₁ = cursors₂ ∧
      r₁.executed = r₂.executed ∧ r₁.values.length = r₂.values.length := by
  intro cursors₁ cursors₂
  obtain ⟨halong₁, hall₁⟩ := dispatched_outline vm₁ h₁
  obtain ⟨halong₂, hall₂⟩ := dispatched_outline vm₂ h₂
  have hcursors₁ : cursors₁ <+: (outline 0 f.body).map Prod.fst := halong₁.map Prod.fst
  have hcursors₂ : cursors₂ <+: (outline 0 f.body).map Prod.fst := halong₂.map Prod.fst
  have hsorted : ((outline 0 f.body).map Prod.fst).Pairwise (· < ·) :=
    List.pairwise_map.2 (outline_sorted 0 f.body).2
  refine ⟨fun cursors hmem => ?_, List.prefix_or_prefix_of_prefix hcursors₁ hcursors₂, fun r₁ r₂ hr₁ hr₂ => ?_⟩
  · have hcursors : cursors <+: (outline 0 f.body).map Prod.fst := by
      rcases List.mem_pair.1 hmem with rfl | rfl
      · exact hcursors₁
      · exact hcursors₂
    refine ⟨hsorted.sublist hcursors.sublist, fun hne => ?_⟩
    obtain ⟨cursor, behind, rfl⟩ := List.exists_cons_of_ne_nil hne
    obtain ⟨more, hmore⟩ := hcursors
    obtain ⟨i, others, houtline, rfl, -⟩ := List.map_eq_cons_iff.1 hmore.symm
    exact congrArg some (fst_head_outline houtline)
  · obtain ⟨hdispatched₁, hexecuted₁, hvalues₁⟩ := hall₁ r₁ hr₁
    obtain ⟨hdispatched₂, hexecuted₂, hvalues₂⟩ := hall₂ r₂ hr₂
    have hsame : cursors₁ = cursors₂ := by
      simp only [cursors₁, cursors₂, hdispatched₁, hdispatched₂]
    have hlen : cursors₁.length = r₁.executed := by
      rw [List.length_map, hdispatched₁, hexecuted₁]
    exact ⟨hlen.symm, hsame, by omega, by omega⟩

/-- A local and a constant that takes two bytes, added up: other arguments and
bounds give another sum by the same instructions, and where there is no room for
the constant the first ones are the same. -/
theorem dispatches_alike_sum :
    let f : Function := ⟨[.i64], [0x20, 0x00, 0x41, 0x83, 0x00, 0x6a, 0x0b]⟩
    let m := Module.ofSections "m" [.exports [⟨"f", .func, 0⟩], .code [f]]
    let c₁ : Config := ⟨"f", [5], 8, 1, none⟩
    let c₂ : Config := ⟨"f", [7, 9], 5, 2, some 4⟩
    let vm₁ : Interpreter := ⟨8, 1, none⟩
    let vm₂ : Interpreter := ⟨5, 2, some 4⟩
    let small : Interpreter := ⟨3, 1, none⟩
    m.startFunction "f" = .ok (0, f) ∧
      vm₁.execute m c₁ = .ok ⟨[.i32 8], 4⟩ ∧ vm₂.execute m c₂ = .ok ⟨[.i32 10], 4⟩ ∧
      (vm₁.dispatched m c₁).map Prod.fst = [0, 2, 5, 6] ∧
      (vm₁.dispatched m c₁).map Prod.fst = (vm₂.dispatched m c₂).map Prod.fst ∧
      small.execute m c₁ = .error (.fault ⟨0, 2, .stackOverflow 3⟩) ∧
      ((vm₁.dispatched m c₁).map Prod.fst <+: (small.dispatched m c₁).map Prod.fst ∨
        (small.dispatched m c₁).map Prod.fst <+: (vm₁.dispatched m c₁).map Prod.fst) := by
  intro f m c₁ c₂ vm₁ vm₂ small
  have hstart : m.startFunction "f" = .ok (0, f) := by
    have hsections := toList_sections_ofSections "m" [.exports [⟨"f", .func, 0⟩], .code [f]]
    refine @Module.Indexed.startFunction_eq m (Module.indexed_ofSections "m" _) "f" [⟨"f", .func, 0⟩] [f] 0 f
      ?_ ?_ rfl rfl
    · rw [hsections]
      rfl
    · rw [hsections]
      rfl
  have hstart₁ : m.startFunction c₁.startFunction = .ok (0, f) := hstart
  have hstart₂ : m.startFunction c₂.startFunction = .ok (0, f) := hstart
  have hcall₁ : vm₁.call 0 f c₁.initialValues = .ok ⟨[.i32 8], 4⟩ := by decide +kernel
  have hcall₂ : vm₂.call 0 f c₂.initialValues = .ok ⟨[.i32 10], 4⟩ := by decide +kernel
  have hsmall : small.call 0 f c₁.initialValues = .error ⟨0, 2, .stackOverflow 3⟩ := by decide +kernel
  have hexecute₁ : vm₁.execute m c₁ = .ok ⟨[.i32 8], 4⟩ := by
    rw [execute_of_startFunction hstart₁, hcall₁]
    rfl
  have hexecute₂ : vm₂.execute m c₂ = .ok ⟨[.i32 10], 4⟩ := by
    rw [execute_of_startFunction hstart₂, hcall₂]
    rfl
  refine ⟨hstart, hexecute₁, hexecute₂, ?_, ?_, ?_, (dispatches_alike vm₁ small hstart₁ hstart₁).2.1⟩
  · rw [dispatched_eq vm₁ hstart₁]
    decide +kernel
  · exact ((dispatches_alike vm₁ vm₂ hstart₁ hstart₂).2.2 _ _ hexecute₁ hexecute₂).2.1
  · rw [execute_of_startFunction hstart₁, hsmall]
    rfl

end Interpreter

end StackVm
