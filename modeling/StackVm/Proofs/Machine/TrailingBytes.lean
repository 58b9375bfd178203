import StackVm.Proofs.Machine.Capacity

/-!
# Bytes behind the end of a run

A run looks at the bytes of a body one after another, and at none behind the
instruction at which it stops. So with more bytes behind the bodies it is the same
run (`Thread.run_extended`), unless it stops because it finds the bytes at an end
(`Trap.lacksBytes`), and an execution has the same result
(`Interpreter.execute_with_trailing_bytes`).

* `Thread.extended`: the thread with more bytes behind the body of each function,
  those of the callers included;
* `Exec.Stable`: actions that do the same there, unless they find an operand cut
  off. They compose, and all instructions are among them (`Opcode.stable_exec`);
* `Thread.turn_extended`: what this comes to for one turn.
-/

namespace StackVm

/-- Whether a trap tells that the bytes of a body end too early. -/
def Trap.lacksBytes : Trap → Bool
  | endOfBody | truncatedOperand => true
  | _ => false

theorem Trap.lacksBytes_iff {trap : Trap} :
    trap.lacksBytes ↔ trap = .endOfBody ∨ trap = .truncatedOperand := by
  cases trap <;> simp [lacksBytes]

/-! ## Longer bodies -/

/-- The same place, with more bytes behind the body; `more` gives those of each
function by its index. -/
def Pointer.extended (more : UInt32 → List UInt8) (p : Pointer) : Pointer :=
  place p.functionIndex (p.body ++ more p.functionIndex) p.cursor

/-- The call, with more bytes behind the body of its caller. -/
def CallFrame.extended (more : UInt32 → List UInt8) (f : CallFrame) : CallFrame :=
  { f with caller := f.caller.map (Pointer.extended more) }

/-- The thread, with more bytes behind the bodies of all functions under way. -/
def Thread.extended (more : UInt32 → List UInt8) (t : Thread) : Thread :=
  { t with
    calls := { t.calls with items := t.calls.items.map (CallFrame.extended more) }
    current := t.current.extended more }

variable {more : UInt32 → List UInt8}

namespace Pointer

variable {p : Pointer}

theorem ext_of_cursor {p q : Pointer} (hindex : p.functionIndex = q.functionIndex) (hbody : p.body = q.body)
    (hcursor : p.cursor = q.cursor) : p = q := by
  obtain ⟨_, _, _, _, rfl⟩ := p
  obtain ⟨_, _, _, _, rfl⟩ := q
  cases hindex
  cases hbody
  cases hcursor
  rfl

theorem extended_advance (more : UInt32 → List UInt8) (p : Pointer) (count : Nat) :
    (p.extended more).advance count = (p.advance count).extended more :=
  ext_of_cursor rfl rfl rfl

/-- Where there are bytes left, more of them follow. -/
theorem rest_extended (h : p.rest ≠ []) : (p.extended more).rest = p.rest ++ more p.functionIndex := by
  have hpos := List.length_pos_iff.2 h
  rw [length_rest, left] at hpos
  rw [p.rest_eq]
  exact List.drop_append_of_le_length (by omega)

theorem current?_extended {b : UInt8} (h : p.current? = some b) : (p.extended more).current? = some b := by
  obtain ⟨bytes, hbytes⟩ := List.head?_eq_some_iff.1 h
  have hrest := @rest_extended more p (by simp [hbytes])
  simp [current?, hrest, hbytes]

end Pointer

theorem Leb128.read_append_of_some {bytes : List UInt8} {g : Groups} (h : read bytes = some g)
    (more : List UInt8) : read (bytes ++ more) = some { g with rest := g.rest ++ more } := by
  obtain ⟨num, rest, hnum, rfl, rfl⟩ := read_eq_some_iff.1 h
  rw [List.append_assoc, read_append hnum]
  rfl

/-! ## Actions on longer bodies -/

namespace Exec

variable {α β : Type}

/-- An outcome, with more bytes behind all bodies; `place` does to a result what
this means for it. -/
def extendedOutcome (more : UInt32 → List UInt8) (place : β → β) :
    EStateM.Result Trap Thread β → EStateM.Result Trap Thread β
  | .ok b t => .ok (place b) (t.extended more)
  | .error e t => .error e (t.extended more)

/-- With more bytes behind all bodies, `longer` does what `action` does, unless
that finds an operand cut off. -/
def Stable (more : UInt32 → List UInt8) (place : β → β) (action longer : Exec β) : Prop :=
  ∀ t, (∃ t', action t = .error .truncatedOperand t') ∨
    longer (t.extended more) = extendedOutcome more place (action t)

theorem stable_pure {place : β → β} (b : β) : Stable more place (pure b) (pure (place b)) :=
  fun _ => .inr rfl

theorem stable_throw {place : β → β} (trap : Trap) : Stable more place (throw trap) (throw trap) :=
  fun _ => .inr rfl

theorem Stable.bind {action longer : Exec α} {place : α → α} {next nextLonger : α → Exec β} {place' : β → β}
    (h : Stable more place action longer)
    (h' : ∀ a, Stable more place' (next a) (nextLonger (place a))) :
    Stable more place' (action >>= next) (longer >>= nextLonger) := by
  intro t
  rcases h t with ⟨t', ht'⟩ | hlonger
  · exact .inl ⟨t', bind_of_error ht'⟩
  cases haction : action t with
  | error e t₁ =>
    rw [haction] at hlonger
    refine .inr ?_
    rw [bind_of_error haction, bind_of_error hlonger]
    rfl
  | ok a t₁ =>
    rw [haction] at hlonger
    rw [bind_of_ok haction, bind_of_ok hlonger]
    exact h' a t₁

theorem stable_onData (action : Stack.Action Value β) : Stable more id (onData action) (onData action) := by
  intro t
  refine .inr ?_
  simp only [onData, Thread.extended]
  cases action t.data <;> rfl

theorem stable_depth : Stable more id depth depth :=
  fun _ => .inr rfl

theorem stable_advance : Stable more id advance advance := by
  intro t
  refine .inr ?_
  show EStateM.Result.ok () { t.extended more with current := (t.current.extended more).advance 1 } = _
  rw [Pointer.extended_advance]
  rfl

theorem stable_jump (target : Pointer) : Stable more id (jump target) (jump (target.extended more)) :=
  fun _ => .inr rfl

theorem stable_frame : Stable more (CallFrame.extended more) frame frame := by
  intro t
  refine .inr ?_
  have hframes : (t.extended more).calls.toListTopFirst =
      t.calls.toListTopFirst.map (CallFrame.extended more) := by
    simp [Thread.extended, Stack.toListTopFirst]
  rw [frame_eq, frame_eq, hframes, List.head?_map]
  cases t.calls.toListTopFirst.head? <;> rfl

theorem stable_popCall : Stable more (CallFrame.extended more) (onCalls Stack.pop) (onCalls Stack.pop) := by
  intro t
  refine .inr ?_
  simp only [onCalls, Stack.pop, Thread.extended, Array.back?_map, ← Array.map_pop]
  cases t.calls.items.back? <;> rfl

/-- An operand that is all there is read alike, whatever follows it. -/
theorem stable_operand (reading : Leb128.Groups → β)
    (hreading : ∀ g rest, reading { g with rest } = reading g) :
    Stable more id (return reading (← operand)) (return reading (← operand)) := by
  intro t
  cases hread : Leb128.read t.current.rest with
  | none =>
    have haction : operand t = .error .truncatedOperand
        { t with current := t.current.advance t.current.rest.length } := by
      simp only [operand, hread]
    exact .inl ⟨_, bind_of_error haction⟩
  | some g =>
    have hne : t.current.rest ≠ [] := by
      intro hnil
      rw [hnil] at hread
      cases hread
    have hlonger : Leb128.read (t.extended more).current.rest =
        some { g with rest := g.rest ++ more t.current.functionIndex } := by
      rw [← Leb128.read_append_of_some hread, ← Pointer.rest_extended hne]
      rfl
    have hcurrent : (t.extended more).current.advance g.size = (t.current.advance g.size).extended more :=
      Pointer.extended_advance more t.current g.size
    have haction : operand t = .ok g { t with current := t.current.advance g.size } := by
      simp only [operand, hread]
    have haction' : operand (t.extended more) = .ok { g with rest := g.rest ++ more t.current.functionIndex }
        (Thread.extended more { t with current := t.current.advance g.size }) := by
      simp only [operand, hlonger, hcurrent]
      rfl
    refine .inr ?_
    rw [bind_of_ok haction, bind_of_ok haction', hreading]
    rfl

theorem stable_unsignedOperand : Stable more id unsignedOperand unsignedOperand :=
  stable_operand _ fun _ _ => rfl

theorem stable_signedOperand : Stable more id signedOperand signedOperand :=
  stable_operand _ fun _ _ => rfl

theorem stable_localIndex (x : UInt32) : Stable more id (localIndex x) (localIndex x) := by
  refine stable_frame.bind fun f => ?_
  have hslot : (f.extended more).localSlot? x = f.localSlot? x := rfl
  rw [hslot]
  cases f.localSlot? x with
  | none => exact stable_throw _
  | some slot =>
    refine stable_depth.bind fun depth => ?_
    simp only [id]
    split
    · exact stable_pure _
    · exact stable_throw _

theorem stable_requireOperands (count : Nat) :
    Stable more id (requireOperands count) (requireOperands count) := by
  refine stable_frame.bind fun f => stable_depth.bind fun depth => ?_
  have hbase : (f.extended more).base = f.base := rfl
  rw [hbase]
  simp only [id]
  split
  · exact stable_throw _
  · exact stable_pure _

/-- A return leads back to the caller, behind whose body more bytes stand too. -/
theorem stable_endBody : Stable more id endBody endBody := by
  have hdrop : ∀ f, Stable more id (dropLocals f) (dropLocals (f.extended more)) := by
    intro f
    show Stable more id (dropLocals f) (dropLocals f)
    simp only [dropLocals]
    split
    · exact stable_onData _
    · exact stable_pure _
  have hresume : ∀ f, Stable more id (resume f) (resume (f.extended more)) := by
    intro f
    simp only [resume, CallFrame.extended]
    cases f.caller with
    | none => exact stable_pure _
    | some caller => exact stable_jump caller
  exact stable_popCall.bind fun f => (hdrop f).bind fun _ => (hresume f).bind fun _ => stable_pure _

theorem stable_binary (op : Int32 → Int32 → Int32) : Stable more id (binary op) (binary op) :=
  stable_advance.bind fun _ => (stable_requireOperands 2).bind fun _ =>
    (stable_onData _).bind fun _ => (stable_onData _).bind fun _ =>
      (stable_onData _).bind fun _ => stable_pure _

end Exec

open Exec in
theorem Opcode.stable_exec (op : Opcode) : Stable more id op.exec op.exec := by
  cases op with
  | unreachable => exact stable_throw _
  | nop => exact stable_advance.bind fun _ => stable_pure _
  | endBody => exact stable_endBody
  | drop =>
    exact stable_advance.bind fun _ => (stable_requireOperands 1).bind fun _ =>
      (stable_onData _).bind fun _ => stable_pure _
  | localGet =>
    exact stable_advance.bind fun _ => stable_unsignedOperand.bind fun x =>
      (stable_localIndex x).bind fun i => (stable_onData _).bind fun v =>
        (stable_onData _).bind fun _ => stable_pure _
  | localSet =>
    exact stable_advance.bind fun _ => stable_unsignedOperand.bind fun x =>
      (stable_requireOperands 1).bind fun _ => (stable_onData _).bind fun v =>
        (stable_localIndex x).bind fun i => (stable_onData _).bind fun _ => stable_pure _
  | localTee =>
    exact stable_advance.bind fun _ => stable_unsignedOperand.bind fun x =>
      (stable_requireOperands 1).bind fun _ => (stable_onData _).bind fun v =>
        (stable_localIndex x).bind fun i => (stable_onData _).bind fun _ => stable_pure _
  | i32Const =>
    exact stable_advance.bind fun _ => stable_signedOperand.bind fun _ =>
      (stable_onData _).bind fun _ => stable_pure _
  | i32Add => exact stable_binary _
  | i32Sub => exact stable_binary _
  | i32Mul => exact stable_binary _

/-! ## Turns and runs -/

/-- What a turn comes to, with more bytes behind all bodies. -/
def Turn.extended (more : UInt32 → List UInt8) : Turn → Turn
  | .more t => .more (t.extended more)
  | .stop outcome t => .stop outcome (t.extended more)

namespace Thread

variable {budget : Option Nat} {t : Thread}

/-- A byte under the cursor is fetched whatever follows. -/
theorem fetch_extended (h : t.fetch budget ≠ .error .endOfBody) :
    (t.extended more).fetch budget = t.fetch budget := by
  rw [fetch, fetch]
  by_cases hspent : budget.any (· ≤ t.executed)
  · exact (if_pos hspent).trans (if_pos hspent).symm
  rw [fetch, if_neg hspent] at h
  refine (if_neg hspent).trans (Eq.trans ?_ (if_neg hspent).symm)
  cases hcurrent : t.current.current? with
  | none => simp [hcurrent] at h
  | some b =>
    have hcurrent' : (t.extended more).current.current? = some b := Pointer.current?_extended hcurrent
    rw [hcurrent']

theorem isEmpty_calls_extended (more : UInt32 → List UInt8) (t : Thread) :
    (t.extended more).calls.isEmpty = t.calls.isEmpty := by
  simp [extended, Stack.isEmpty, Array.isEmpty]

/-- A turn that does not find the bytes at an end is the same with more of
them. -/
theorem turn_extended (more : UInt32 → List UInt8)
    (h : ∀ fault t', t.turn budget = .stop (.error fault) t' → ¬ fault.trap.lacksBytes) :
    (t.extended more).turn budget = (t.turn budget).extended more := by
  cases hfetch : t.fetch budget with
  | error trap =>
    have hturn := turn_of_fetch_error hfetch
    have hfetch' := @fetch_extended more budget t (by
      rw [hfetch]
      rintro ⟨⟩
      exact h _ _ hturn rfl)
    rw [hturn, turn_of_fetch_error (hfetch'.trans hfetch)]
    rfl
  | ok op =>
    have hfetch' := (@fetch_extended more budget t (by simp [hfetch])).trans hfetch
    have hturn : t.turn budget = t.dispatch op := by rw [turn, hfetch]
    have hturn' : (t.extended more).turn budget = (t.extended more).dispatch op := by rw [turn, hfetch']
    rw [hturn', hturn]
    rcases op.stable_exec t.counted with ⟨t', hshort⟩ | hlonger
    · exact absurd rfl (h _ _ (hturn.trans (dispatch_of_error hshort)))
    replace hlonger : op.exec (t.extended more).counted = Exec.extendedOutcome more id (op.exec t.counted) :=
      hlonger
    rcases hexec : op.exec t.counted with ⟨_ | _, t'⟩ | ⟨trap, t'⟩ <;> rw [hexec] at hlonger
    · rw [dispatch_of_next hexec, dispatch_of_next hlonger]
      rfl
    · rw [dispatch_of_returned hexec, dispatch_of_returned hlonger, isEmpty_calls_extended]
      cases t'.calls.isEmpty <;> rfl
    · rw [dispatch_of_error hexec, dispatch_of_error hlonger]
      rfl

/-- A run that does not find the bytes at an end is the same with more of them.
The induction is on the run. -/
theorem run_extended (more : UInt32 → List UInt8)
    (h : ∀ fault, (t.run budget).1 = .error fault → ¬ fault.trap.lacksBytes) :
    (t.extended more).run budget = ((t.run budget).1, (t.run budget).2.extended more) := by
  induction t using Thread.run.induct budget with
  | case1 t t' hturn ih =>
    have hturn' := @turn_extended budget t more (by simp [hturn])
    rw [hturn] at hturn'
    rw [run_of_more hturn] at h ⊢
    rw [run_of_more hturn']
    exact ih h
  | case2 t outcome t' hturn =>
    rw [run_of_stop hturn] at h ⊢
    have hturn' := @turn_extended budget t more (by
      rw [hturn]
      rintro fault _ ⟨⟩
      exact h fault rfl)
    rw [hturn] at hturn'
    exact run_of_stop hturn'

end Thread

/-! ## Executions -/

namespace Interpreter

/-- A function that has more bytes behind its body is entered alike. -/
theorem enter_append (vm : Interpreter) (index : UInt32) (f : Function) (bytes : List UInt8)
    (arguments : List Int32) : vm.enter index { f with body := f.body ++ bytes } arguments =
      (vm.enter index f arguments).map (Thread.extended fun _ => bytes) := by
  rw [enter_eq, enter_eq]
  by_cases hroom : arguments.length + f.locals.length ≤ vm.dataCapacity
  · by_cases hcalls : 0 < vm.callCapacity
    · rw [if_pos hroom, if_pos hroom, if_pos hcalls, if_pos hcalls]
      simp [Except.map, entered, Thread.extended, Thread.resized, Stack.resized, Stack.ofTopFirst,
        CallFrame.extended, Pointer.extended, Pointer.start, Pointer.place, Exec.localsOf]
    · rw [if_pos hroom, if_pos hroom, if_neg hcalls, if_neg hcalls]
      rfl
  · rw [if_neg hroom, if_neg hroom]
    rfl

theorem call_append {vm : Interpreter} {index : UInt32} {f : Function} {arguments : List Int32}
    (h : ∀ fault, vm.call index f arguments = .error fault → ¬ fault.trap.lacksBytes) (bytes : List UInt8) :
    vm.call index { f with body := f.body ++ bytes } arguments = vm.call index f arguments := by
  rw [call] at h
  rw [call, call, enter_append]
  cases henter : vm.enter index f arguments with
  | error fault => rfl
  | ok t =>
    simp only [henter] at h
    have hrun := @Thread.run_extended vm.maxInstructions t (fun _ => bytes) (by
      intro fault hfault
      rcases hrun : t.run vm.maxInstructions with ⟨_ | _, t'⟩ <;> rw [hrun] at h hfault <;> cases hfault
      exact h _ rfl)
    simp only [Except.map, hrun]
    rcases t.run vm.maxInstructions with ⟨_ | _, t'⟩ <;> rfl

/-- An execution of a function that has more bytes behind its body. If without
them it returns, or faults for any other reason than that the body ends where an
instruction should stand or inside an operand, it has the same result. -/
theorem execute_with_trailing_bytes {m m' : Module} {c : Config} {index : UInt32} {f : Function}
    {bytes : List UInt8} (vm : Interpreter) (hstart : m.startFunction c.startFunction = .ok (index, f))
    (hlonger : m'.startFunction c.startFunction = .ok (index, { f with body := f.body ++ bytes }))
    (hresult : ∀ fault, vm.execute m c = .error (.fault fault) →
      fault.trap ≠ .endOfBody ∧ fault.trap ≠ .truncatedOperand) :
    vm.execute m' c = vm.execute m c := by
  rw [execute_of_startFunction hstart] at hresult
  rw [execute_of_startFunction hlonger, execute_of_startFunction hstart, call_append]
  intro fault hfault
  have hother := hresult fault (by rw [hfault]; rfl)
  rw [Trap.lacksBytes_iff]
  exact not_or.2 hother

/-- Bytes behind the end of a body mean nothing, and neither do those behind an
instruction that finds an operand of another type. A constant that is cut off does
depend on what follows, and so does a body without an end. -/
theorem execute_with_trailing_bytes_sum :
    let exporting := fun body =>
      Module.ofSections "m" [.exports [⟨"f", .func, 0⟩], .code [⟨[.i64], body⟩]]
    let sum : List UInt8 := [0x41, 0x03, 0x20, 0x00, 0x6a, 0x0b]
    let mixed : List UInt8 := [0x20, 0x01, 0x20, 0x00, 0x6a]
    let c : Config := ⟨"f", [5], 8, 1, none⟩
    let vm : Interpreter := ⟨8, 1, none⟩
    vm.execute (exporting sum) c = .ok ⟨[.i32 8], 4⟩ ∧
      vm.execute (exporting (sum ++ [0x41, 0xff])) c = .ok ⟨[.i32 8], 4⟩ ∧
      vm.execute (exporting mixed) c = .error (.fault ⟨0, 4, .typeMismatch .i32 .i64⟩) ∧
      vm.execute (exporting (mixed ++ [0x0b])) c = .error (.fault ⟨0, 4, .typeMismatch .i32 .i64⟩) ∧
      vm.execute (exporting [0x41, 0x83]) c = .error (.fault ⟨0, 0, .truncatedOperand⟩) ∧
      vm.execute (exporting [0x41, 0x83, 0x00]) c = .error (.fault ⟨0, 3, .endOfBody⟩) ∧
      vm.execute (exporting [0x41, 0x83, 0x00, 0x0b]) c = .ok ⟨[.i32 3], 2⟩ := by
  intro exporting sum mixed c vm
  have hstart : ∀ body, (exporting body).startFunction c.startFunction = .ok (0, ⟨[.i64], body⟩) :=
    fun body => Module.startFunction_ofSections "m" "f" rfl
  have hexecute : ∀ body, vm.execute (exporting body) c =
      (vm.call 0 ⟨[.i64], body⟩ c.initialValues).mapError .fault :=
    fun body => execute_of_startFunction (hstart body)
  have hsum : vm.execute (exporting sum) c = .ok ⟨[.i32 8], 4⟩ := by
    rw [hexecute]
    decide +kernel
  have hmixed : vm.execute (exporting mixed) c = .error (.fault ⟨0, 4, .typeMismatch .i32 .i64⟩) := by
    rw [hexecute]
    decide +kernel
  refine ⟨hsum, ?_, hmixed, ?_, ?_, ?_, ?_⟩
  · refine (execute_with_trailing_bytes vm (hstart sum) (hstart _) ?_).trans hsum
    simp [hsum]
  · refine (execute_with_trailing_bytes vm (hstart mixed) (hstart _) ?_).trans hmixed
    simp [hmixed]
  all_goals
    rw [hexecute]
    decide +kernel

end Interpreter

end StackVm
