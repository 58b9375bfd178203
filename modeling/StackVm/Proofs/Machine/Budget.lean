import StackVm.Proofs.Machine.ControlFlow
import StackVm.Proofs.Machine.Room

/-!
# Runs on a budget

A budget is looked at before an instruction is fetched, and nowhere else: as long
as it is not spent, a turn is the same as without one (`Thread.turn_of_unspent`),
and once it is spent the thread stays as it is (`Thread.turn_of_spent`). So a run
that stops there has executed whole instructions only, and can go on.

* `Thread.run_eq_ifPaused`: a run on a budget is a run on a smaller one that goes
  on if that is spent. Any sequence of budgets leads to the same end
  (`Thread.run_after_pause`);
* `Thread.LaidOut.budgeted`: what a run on a budget is, put by the run without
  one. The budget has to pay for every turn (`Thread.needed`), also for the one
  that finds no instruction to dispatch;
* `Interpreter.execute_on_budget`: the same of executions.
-/

namespace StackVm

/-- Whether a trap tells that there is no instruction to dispatch. -/
def Trap.uncounted : Trap → Bool
  | endOfBody | invalidOpcode _ => true
  | _ => false

theorem Trap.counted_of_ofInstruction {trap : Trap} (h : trap.ofInstruction) :
    trap ≠ .budgetExhausted ∧ ¬ trap.uncounted := by
  cases trap with
  | stackUnderflow | unreachable | typeMismatch | truncatedOperand => exact ⟨nofun, nofun⟩
  | stackOverflow | invalidOpcode | endOfBody | budgetExhausted => cases h

namespace Thread

variable {budget : Option Nat} {t t' : Thread} {b : Nat}

/-! ## Turns -/

theorem fetch_of_unspent (h : ∀ b ∈ budget, t.executed < b) : t.fetch budget = t.fetch none := by
  cases budget with
  | none => rfl
  | some b => simp [fetch, Nat.not_le_of_lt (h b rfl)]

theorem turn_of_unspent (h : ∀ b ∈ budget, t.executed < b) : t.turn budget = t.turn none := by
  rw [turn, turn, fetch_of_unspent h]

theorem fetch_of_spent (h : b ≤ t.executed) : t.fetch (some b) = .error .budgetExhausted := by
  simp [fetch, h]

theorem turn_of_spent (h : b ≤ t.executed) :
    t.turn (some b) = .stop (.error (t.current.fault .budgetExhausted)) t :=
  turn_of_fetch_error (fetch_of_spent h)

theorem lt_of_turn_eq_more (h : t.turn (some b) = .more t') : t.executed < b := by
  refine Nat.lt_of_not_le fun hspent => ?_
  rw [turn_of_spent hspent] at h
  cases h

/-- An instruction that is not fetched is not there, if the budget is not
spent. -/
theorem trap_of_fetch {trap : Trap} (h : t.fetch budget = .error trap) :
    budget.any (· ≤ t.executed) ∧ trap = .budgetExhausted ∨ trap.uncounted := by
  rw [fetch] at h
  split at h
  · next hspent =>
    cases h
    exact .inl ⟨hspent, rfl⟩
  · split at h
    · cases h
      exact .inr rfl
    · split at h <;> cases h
      exact .inr rfl

theorem uncounted_of_fetch {trap : Trap} (h : t.fetch none = .error trap) : trap.uncounted :=
  (trap_of_fetch h).resolve_left fun hspent => by cases hspent.1

/-- Without a budget none is exhausted, and what is not counted is not
dispatched. -/
theorem trap_of_stop {fault : Fault} (h : t.turn none = .stop (.error fault) t') :
    fault.trap ≠ .budgetExhausted ∧ (fault.trap.uncounted ↔ ∃ trap, t.fetch none = .error trap) := by
  have hturned := turned none t
  rw [h] at hturned
  cases hturned with
  | @refused trap hfetch =>
    have huncounted := uncounted_of_fetch hfetch
    refine ⟨?_, fun _ => ⟨trap, hfetch⟩, fun _ => huncounted⟩
    intro hexhausted
    rw [show trap = .budgetExhausted from hexhausted] at huncounted
    cases huncounted
  | @trapped op trap _ hfetch hexec =>
    have hcounted : trap ≠ .budgetExhausted ∧ ¬ trap.uncounted := by
      rcases (op.pushesLast_exec.trap_cases hexec).2 with hown | ⟨rfl, -⟩
      · exact Trap.counted_of_ofInstruction hown
      · exact ⟨nofun, nofun⟩
    refine ⟨hcounted.1, fun huncounted => absurd huncounted hcounted.2, ?_⟩
    rintro ⟨trap', hfetch'⟩
    cases hfetch.symm.trans hfetch'

/-! ## Pauses -/

/-- Goes on with a run if it stopped because its budget was spent. -/
def ifPaused (next : Thread → Except Fault Unit × Thread) :
    Except Fault Unit × Thread → Except Fault Unit × Thread
  | (.error fault, t) => if fault.trap = .budgetExhausted then next t else (.error fault, t)
  | (.ok (), t) => (.ok (), t)

/-- Runs on one budget after another, as long as they are spent, and then on the
last one. -/
def runInStages (last : Option Nat) : List Nat → Thread → Except Fault Unit × Thread
  | [], t => t.run last
  | b :: budgets, t => ifPaused (runInStages last budgets) (t.run (some b))

/-- The induction is on the run on the smaller budget. -/
theorem run_eq_ifPaused (hle : ∀ b₂ ∈ budget, b ≤ b₂) (t : Thread) :
    t.run budget = ifPaused (run budget) (t.run (some b)) := by
  induction t using Thread.run.induct (some b) with
  | case1 t t' hturn ih =>
    have hlt := lt_of_turn_eq_more hturn
    have hturn' : t.turn budget = .more t' := by
      rw [turn_of_unspent fun b₂ hb₂ => Nat.lt_of_lt_of_le hlt (hle b₂ hb₂), ← hturn]
      exact (turn_of_unspent (by simpa using hlt)).symm
    rw [run_of_more hturn, run_of_more hturn', ih]
  | case2 t outcome t' hturn =>
    rw [run_of_stop hturn]
    by_cases hspent : b ≤ t.executed
    · cases (turn_of_spent hspent).symm.trans hturn
      rw [ifPaused, Pointer.fault, if_pos rfl]
    · have hlt := Nat.lt_of_not_le hspent
      have hnone : t.turn none = .stop outcome t' := by
        rw [← hturn]
        exact (turn_of_unspent (by simpa using hlt)).symm
      have hturn' : t.turn budget = .stop outcome t' := by
        rw [turn_of_unspent fun b₂ hb₂ => Nat.lt_of_lt_of_le hlt (hle b₂ hb₂), hnone]
      rw [run_of_stop hturn']
      cases outcome with
      | ok => rfl
      | error fault => rw [ifPaused, if_neg (trap_of_stop hnone).1]

theorem runInStages_eq {last : Option Nat} {budgets : List Nat} (hle : ∀ b ∈ budgets, ∀ b₂ ∈ last, b ≤ b₂)
    (t : Thread) : t.runInStages last budgets = t.run last := by
  induction budgets generalizing t with
  | nil => rfl
  | cons b budgets ih =>
    have hrest : runInStages last budgets = run last :=
      funext (ih fun b' hb' => hle b' (List.mem_cons_of_mem _ hb'))
    rw [runInStages, hrest, run_eq_ifPaused (hle b List.mem_cons_self)]

/-- A run that stops because its budget is spent can be taken up again on any
larger budget, or on none, and comes to the same end as if it had not stopped. So
do runs on any budgets, one after another, that do not exceed the last one. -/
theorem run_after_pause (t : Thread) :
    (∀ (b : Nat) (budget : Option Nat) (fault : Fault) (t₁ : Thread), (∀ b₂ ∈ budget, b ≤ b₂) →
      t.run (some b) = (.error fault, t₁) → fault.trap = .budgetExhausted →
      t₁.run budget = t.run budget) ∧
    ∀ (budgets : List Nat) (last : Option Nat), (∀ b ∈ budgets, ∀ b₂ ∈ last, b ≤ b₂) →
      t.runInStages last budgets = t.run last := by
  refine ⟨fun b budget fault t₁ hle hrun htrap => ?_, fun budgets last hle => runInStages_eq hle t⟩
  rw [run_eq_ifPaused hle t, hrun, ifPaused, if_pos htrap]

/-- A call within a call, stopped in the callee and taken up again, and the same
run in five stages, one of which executes nothing. -/
theorem run_after_pause_nested :
    let main : Function := ⟨[.i64], [0x41, 0x03, 0x20, 0x00, 0x6a, 0x0b]⟩
    let negated : Function := ⟨[], [0x20, 0x00, 0x41, 0x7f, 0x6c, 0x0b]⟩
    let requests : List Request := [.enter 0 main [.i32 5], .run (some 2), .enter 1 negated [.i32 7]]
    let t := requests.foldl serve (new 8 2)
    ∃ t₁, t.run (some 4) = (.error ⟨1, 4, .budgetExhausted⟩, t₁) ∧
      t₁.data.items = #[.i32 5, .i64 0, .i32 3, .i32 5, .i32 7, .i32 7, .i32 (-1)] ∧
      t₁.run none = t.run none ∧ (t.run none).2.data.items = #[.i32 3, .i32 (-2)] ∧
      t.runInStages (some 8) [3, 5, 5, 7] = t.run (some 8) ∧ (t.run (some 8)).1 = .ok () := by
  intro main negated requests t
  have hpaused : (t.run (some 4)).1 = .error ⟨1, 4, .budgetExhausted⟩ := by decide +kernel
  have hrun : t.run (some 4) = (.error ⟨1, 4, .budgetExhausted⟩, (t.run (some 4)).2) := by rw [← hpaused]
  obtain ⟨hresume, hstages⟩ := run_after_pause t
  refine ⟨_, hrun, by decide +kernel, ?_, by decide +kernel, ?_, by decide +kernel⟩
  · exact hresume 4 none ⟨1, 4, .budgetExhausted⟩ _ nofun hrun rfl
  · exact hstages [3, 5, 5, 7] (some 8) (by simp)

/-! ## Thresholds -/

/-- The budget that a run needs on top of what the thread has executed: one for
each instruction that is dispatched without a budget, and one more if the run then
looks for an instruction that is not there. -/
def needed (t : Thread) : Nat :=
  (t.dispatched none).length +
    match (t.run none).1 with
    | .error fault => if fault.trap.uncounted then 1 else 0
    | .ok () => 0

theorem needed_le (t : Thread) : t.needed ≤ (t.dispatched none).length + 1 := by
  rw [needed]
  split
  · split <;> omega
  · omega

theorem needed_of_more (h : t.turn none = .more t') : t.needed = t'.needed + 1 := by
  obtain ⟨op, -, hfetch, -⟩ := exists_exec_of_more h
  rw [needed, needed, run_of_more h, dispatched_of_more h, hfetch]
  simp only [Except.toOption, Option.toList, List.map_cons, List.map_nil, List.length_append, List.length_cons,
    List.length_nil]
  omega

/-- The last turn has to be paid for, whether it dispatches an instruction or
not. -/
theorem needed_of_stop {outcome : Except Fault Unit} (h : t.turn none = .stop outcome t') : t.needed = 1 := by
  rw [needed, run_of_stop h, dispatched_of_stop h]
  cases hfetch : t.fetch none with
  | error trap =>
    rw [turn_of_fetch_error hfetch] at h
    cases h
    simp [Except.toOption, Pointer.fault, uncounted_of_fetch hfetch]
  | ok op =>
    cases outcome with
    | ok => rfl
    | error fault =>
      have hcounted : ¬ fault.trap.uncounted := by
        rw [(trap_of_stop h).2, hfetch]
        rintro ⟨trap, htrap⟩
        cases htrap
      simp [Except.toOption, hcounted]

/-- What the run is on a budget that allows `count` more instructions: the same as
without one if it gets what it needs, and else it stops where the run without one
is after `count` turns. -/
structure Budgeted (t : Thread) (count : Nat) : Prop where
  dispatched_eq : t.dispatched (some (t.executed + count)) = (t.dispatched none).take count
  run_eq : t.needed ≤ count → t.run (some (t.executed + count)) = t.run none
  pauses : count < t.needed → ∃ t', t.after? none count = some t' ∧ t'.executed = t.executed + count ∧
    t.run (some (t.executed + count)) = (.error (t'.current.fault .budgetExhausted), t')

theorem budgeted_zero (hpos : 0 < t.needed) : t.Budgeted 0 := by
  have hspent : t.executed + 0 ≤ t.executed := Nat.le_refl _
  constructor
  · rw [dispatched_of_stop (turn_of_spent hspent), fetch_of_spent hspent]
    rfl
  · intro hle
    omega
  · intro _
    exact ⟨t, rfl, rfl, run_of_stop (turn_of_spent hspent)⟩

theorem Budgeted.cons {count : Nat} (h : t'.Budgeted count) (hturn : t.turn none = .more t')
    (hexecuted : t'.executed = t.executed + 1) : t.Budgeted (count + 1) := by
  have hbudget : t.executed + (count + 1) = t'.executed + count := by omega
  have hunspent : ∀ b ∈ some (t'.executed + count), t.executed < b := by
    intro b hb
    cases hb
    omega
  have hturn' : t.turn (some (t'.executed + count)) = .more t' := (turn_of_unspent hunspent).trans hturn
  obtain ⟨op, -, hfetch, -⟩ := exists_exec_of_more hturn
  have hneeded := needed_of_more hturn
  constructor
  · rw [hbudget, dispatched_of_more hturn', dispatched_of_more hturn, fetch_of_unspent hunspent, hfetch,
      h.dispatched_eq]
    rfl
  · intro hle
    rw [hbudget, run_of_more hturn', run_of_more hturn]
    exact h.run_eq (by omega)
  · intro hlt
    obtain ⟨t₁, hafter, hcount, hrun⟩ := h.pauses (by omega)
    refine ⟨t₁, ?_, by omega, ?_⟩
    · rw [after?_succ_of_more hturn, hafter]
    · rw [hbudget, run_of_more hturn', hrun]

theorem budgeted_of_stop {outcome : Except Fault Unit} (hturn : t.turn none = .stop outcome t') (count : Nat) :
    t.Budgeted (count + 1) := by
  have hunspent : ∀ b ∈ some (t.executed + (count + 1)), t.executed < b := by
    intro b hb
    cases hb
    omega
  have hturn' : t.turn (some (t.executed + (count + 1))) = .stop outcome t' :=
    (turn_of_unspent hunspent).trans hturn
  constructor
  · rw [dispatched_of_stop hturn', dispatched_of_stop hturn, fetch_of_unspent hunspent]
    cases t.fetch none <;> simp [Except.toOption]
  · intro _
    rw [run_of_stop hturn', run_of_stop hturn]
  · intro hlt
    rw [needed_of_stop hturn] at hlt
    omega

theorem LaidOut.budgeted (h : t.LaidOut) (count : Nat) : t.Budgeted count := by
  induction t using Thread.run.induct none generalizing count with
  | case1 t t' hturn ih =>
    cases count with
    | zero => exact budgeted_zero (by rw [needed_of_more hturn]; omega)
    | succ count =>
      have hbudgeted := ih (h.keeps_of_more hturn).laidOut count
      exact hbudgeted.cons hturn (h.executed_of_more hturn)
  | case2 t outcome t' hturn =>
    cases count with
    | zero => exact budgeted_zero (by rw [needed_of_stop hturn]; omega)
    | succ count => exact budgeted_of_stop hturn count

end Thread

/-! ## Executions -/

namespace Interpreter

/-- The budget that an execution without one needs: one for each instruction that
it dispatches, and one more if it ends where there is none to dispatch. -/
def needed (vm : Interpreter) (m : Module) (c : Config) : Nat :=
  (vm.dispatched m c).length +
    match vm.execute m c with
    | .error (.fault fault) => if fault.trap.uncounted then 1 else 0
    | _ => 0

variable {vm : Interpreter} {m : Module} {c : Config} {index : UInt32} {f : Function} {t : Thread}

theorem dispatched_of_enter (hstart : m.startFunction c.startFunction = .ok (index, f))
    (henter : vm.enter index f c.initialValues = .ok t) :
    vm.dispatched m c = t.dispatched vm.maxInstructions := by
  rw [dispatched_eq vm hstart, henter]

theorem needed_of_enter (hstart : m.startFunction c.startFunction = .ok (index, f))
    (henter : vm.enter index f c.initialValues = .ok t) (hbudget : vm.maxInstructions = none) :
    vm.needed m c = t.needed := by
  rw [needed, Thread.needed, dispatched_of_enter hstart henter, execute_of_enter hstart henter, hbudget]
  rcases t.run none with ⟨_ | _, t'⟩ <;> rfl

/-- An execution that gets to run, and the same on a budget: the result is the
same if the budget is what the execution needs, or more. On a smaller budget it
faults when the budget is spent, at the place where the other one is after as many
instructions. -/
theorem execute_on_budget (vm : Interpreter) {m : Module} {c : Config} {index : UInt32} {f : Function}
    {t : Thread} (hstart : m.startFunction c.startFunction = .ok (index, f))
    (henter : vm.enter index f c.initialValues = .ok t) (b : Nat) :
    let unbounded : Interpreter := { vm with maxInstructions := none }
    let bounded : Interpreter := { vm with maxInstructions := some b }
    (unbounded.needed m c ≤ b → bounded.execute m c = unbounded.execute m c) ∧
    (b < unbounded.needed m c → ∃ t', t.after? none b = some t' ∧ t'.executed = b ∧
      bounded.execute m c = .error (.fault (t'.current.fault .budgetExhausted)) ∧
      bounded.dispatched m c = (unbounded.dispatched m c).take b ∧ (bounded.dispatched m c).length = b) := by
  intro unbounded bounded
  obtain ⟨hlaidOut, hthread⟩ := eq_within_of_enter henter
  have hexecuted : t.executed = 0 := by rw [hthread]; rfl
  have hbudgeted := hlaidOut.budgeted b
  have hneeded : unbounded.needed m c = t.needed := needed_of_enter hstart henter rfl
  have hle := t.needed_le
  have hbudget : bounded.maxInstructions = some (t.executed + b) := by rw [hexecuted, Nat.zero_add]
  have hexecute := @execute_of_enter bounded m c index f t hstart henter
  have hdispatched := @dispatched_of_enter bounded m c index f t hstart henter
  have hexecute' := @execute_of_enter unbounded m c index f t hstart henter
  have hdispatched' := @dispatched_of_enter unbounded m c index f t hstart henter
  rw [hneeded, hexecute, hdispatched, hexecute', hdispatched', hbudget]
  constructor
  · intro henough
    rw [hbudgeted.run_eq henough]
  · intro hshort
    obtain ⟨t', hafter, hcount, hrun⟩ := hbudgeted.pauses hshort
    refine ⟨t', hafter, by omega, ?_, hbudgeted.dispatched_eq, ?_⟩
    · rw [hrun]
    · rw [hbudgeted.dispatched_eq, List.length_take]
      omega

/-- Three instructions and no end. A budget of three is spent before the run
finds that the body ends, and a budget of two before the last instruction. -/
theorem execute_on_budget_endless :
    let f : Function := ⟨[], [0x01, 0x41, 0x83, 0x00, 0x1a]⟩
    let m := Module.ofSections "m" [.exports [⟨"f", .func, 0⟩], .code [f]]
    let c : Config := ⟨"f", [5], 8, 1, none⟩
    let vm : Interpreter := ⟨8, 1, none⟩
    m.startFunction "f" = .ok (0, f) ∧ vm.needed m c = 4 ∧
      { vm with maxInstructions := some 4 }.execute m c = .error (.fault ⟨0, 5, .endOfBody⟩) ∧
      { vm with maxInstructions := some 3 }.execute m c = .error (.fault ⟨0, 5, .budgetExhausted⟩) ∧
      { vm with maxInstructions := some 2 }.execute m c = .error (.fault ⟨0, 4, .budgetExhausted⟩) := by
  intro f m c vm
  have hstart : m.startFunction c.startFunction = .ok (0, f) := Module.startFunction_ofSections "m" "f" rfl
  let t : Thread := ⟨⟨#[⟨none, 1, 1⟩], 1⟩, ⟨#[.i32 5], 8⟩, .start 0 f.body, 0⟩
  have henter : vm.enter 0 f c.initialValues = .ok t := by decide +kernel
  have hneeded : vm.needed m c = 4 := (needed_of_enter hstart henter rfl).trans (by decide +kernel)
  have hcall : vm.call 0 f c.initialValues = .error ⟨0, 5, .endOfBody⟩ := by decide +kernel
  have hexecute : vm.execute m c = .error (.fault ⟨0, 5, .endOfBody⟩) := by
    rw [execute_of_startFunction hstart, hcall]
    rfl
  -- where the run is after so many instructions
  have hplace : ∀ b fault, b < 4 →
      (t.after? none b).map (·.current.fault .budgetExhausted) = some fault →
      { vm with maxInstructions := some b }.execute m c = .error (.fault fault) := by
    intro b fault hb hfault
    obtain ⟨t', hafter, -, hbounded, -⟩ := (execute_on_budget vm hstart henter b).2 (hneeded ▸ hb)
    rw [hafter] at hfault
    rw [hbounded]
    exact congrArg _ (congrArg _ (Option.some.inj hfault))
  refine ⟨hstart, hneeded, ?_, hplace 3 _ (by decide) (by decide +kernel), hplace 2 _ (by decide) (by decide +kernel)⟩
  exact ((execute_on_budget vm hstart henter 4).1 (Nat.le_of_eq hneeded)).trans hexecute

end Interpreter

end StackVm
