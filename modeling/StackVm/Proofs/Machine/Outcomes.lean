import StackVm.Proofs.Machine.Capacity

/-!
# How executions end

An execution fails before it starts, returns, or faults at a place where
instructions of the body meet. What the outcome is, and where it is said to be,
can be told from the module and from what was dispatched
(`Interpreter.execute_outcome`).

* `Opcode.Boundary`: the places where instructions meet;
* `Thread.Inside.turn`: a call that the host made goes from one of them to the
  next. The place of a trap is where its instruction starts, however far the
  instruction got;
* `Thread.Ends`, `Thread.Inside.ends`: so a run ends in one of a few ways.
-/

namespace StackVm

/-! ## Places -/

namespace Opcode

/-- The places of a body that are reached from its start by skipping whole
instructions. One that does not lead on is not skipped. -/
inductive Boundary (body : List UInt8) : Nat → Prop
  | start : Boundary body 0
  | next {cursor n : Nat} {b : UInt8} {rest : List UInt8} {op : Opcode} :
    Boundary body cursor → body.drop cursor = b :: rest → ofByte? b = some op → op.reach rest = some n →
      Boundary body (cursor + n)

theorem reach_le {rest : List UInt8} {op : Opcode} {n : Nat} (h : op.reach rest = some n) :
    n ≤ rest.length + 1 := by
  cases op with
  | unreachable | endBody => cases h
  | nop | drop | i32Add | i32Sub | i32Mul =>
    cases h
    omega
  | localGet | localSet | localTee | i32Const =>
    obtain ⟨g, hread, rfl⟩ := Option.map_eq_some_iff.1 h
    obtain ⟨num, behind, -, rfl, rfl⟩ := Leb128.read_eq_some_iff.1 hread
    show 1 + num.length ≤ _
    rw [List.length_append]
    omega

theorem Boundary.le_length {body : List UInt8} {cursor : Nat} (h : Boundary body cursor) :
    cursor ≤ body.length := by
  induction h with
  | start => exact Nat.zero_le _
  | @next cursor n b rest op _ hrest _ hreach _ =>
    have hlength := congrArg List.length hrest
    rw [List.length_drop, List.length_cons] at hlength
    have := reach_le hreach
    omega

end Opcode

/-- What is known of the place of a fault, when a call of the function went
through the instructions `dispatched`. -/
structure Fault.Placed (fault : Fault) (index : UInt32) (body : List UInt8) (dispatched : List (Nat × Opcode)) :
    Prop where
  functionIndex_eq : fault.functionIndex = index
  boundary : Opcode.Boundary body fault.cursor
  le_length : fault.cursor ≤ body.length
  ended : fault.trap = .endOfBody → fault.cursor = body.length
  /-- What faults is the byte under the cursor: it is no opcode, or the one that was
  dispatched last. -/
  opcode : fault.trap ≠ .endOfBody → fault.trap ≠ .budgetExhausted → ∃ b, body[fault.cursor]? = some b ∧
    ((fault.trap = .invalidOpcode b ∧ Opcode.ofByte? b = none) ∨
      ∃ op, Opcode.ofByte? b = some op ∧ dispatched.getLast? = some (fault.cursor, op))

namespace Thread

variable {index : UInt32} {body : List UInt8} {budget : Option Nat} {t t' : Thread} {op : Opcode}

/-! ## Turns -/

/-- The only call of the thread is one of the function, and its pointer is where
instructions meet. -/
structure Inside (index : UInt32) (body : List UInt8) (t : Thread) : Prop where
  laidOut : t.LaidOut
  single : ∃ (m : SplitThread) (a : Activation), t = m.within [] a
  functionIndex_eq : t.current.functionIndex = index
  body_eq : t.current.body = body
  boundary : Opcode.Boundary body t.current.cursor

/-- What becomes of a call of the function that executes an instruction. -/
inductive Passes (index : UInt32) (body : List UInt8) (cursor : Nat) : Opcode → Turn → Prop
  | more {op : Opcode} {t : Thread} :
    op ≠ .endBody → t.Inside index body → Passes index body cursor op (.more t)
  | returned {t : Thread} : Passes index body cursor .endBody (.stop (.ok ()) t)
  | trapped {op : Opcode} {trap : Trap} {t : Thread} :
    op ≠ .endBody → Passes index body cursor op (.stop (.error ⟨index, cursor, trap⟩) t)

theorem Inside.turn (h : t.Inside index body) (hop : t.fetch budget = .ok op) :
    Passes index body t.current.cursor op (t.turn budget) := by
  obtain ⟨m, a, rfl⟩ := h.single
  obtain ⟨b, bytes, hbytes, hopcode⟩ := SplitThread.exists_rest_of_fetch hop
  have hturn := SplitThread.turn_within (SplitThread.length_le_of_laidOut h.laidOut)
  rw [← turn_eq_of_fetch hop, Activation.next_of_opcode hbytes hopcode] at hturn
  -- the end of the body always succeeds
  have hne : a.exec (m.roomFor [] a) op ≠ .ok none → op ≠ .endBody := by
    rintro hmade rfl
    exact hmade rfl
  rcases hmade : a.exec (m.roomFor [] a) op with trap | _ | a'
  · rw [hmade] at hturn
    obtain ⟨t', ht'⟩ := hturn
    rw [ht', Pointer.fault, show a.pointer.functionIndex = index from h.functionIndex_eq]
    exact .trapped (hne (by simp [hmade]))
  · rw [hmade] at hturn
    obtain rfl : op = .endBody := Activation.reaches_of_exec hbytes hmade
    rw [show (m.within [] a).turn budget = .stop (.ok ()) _ from hturn]
    exact .returned
  · rw [hmade] at hturn
    obtain ⟨⟨n, hreach, hpointer⟩, -⟩ := Activation.reaches_of_exec hbytes hmade
    have hmore : (m.within [] a).turn budget = .more ((m.after 1).within [] a') := hturn
    have hcurrent : ((m.after 1).within [] a').current = (m.within [] a).current.advance n := hpointer
    rw [hmore]
    refine .more (hne (by simp [hmade])) ⟨(h.laidOut.keeps_of_more hmore).laidOut, ⟨_, _, rfl⟩, ?_, ?_, ?_⟩
    · rw [hcurrent]
      exact h.functionIndex_eq
    · rw [hcurrent]
      exact h.body_eq
    · rw [hcurrent]
      have hrest : body.drop (m.within [] a).current.cursor = b :: bytes := by
        rw [← h.body_eq, ← (m.within [] a).current.rest_eq]
        exact hbytes
      exact h.boundary.next hrest hopcode hreach

/-! ## Runs -/

/-- The ways in which a run through a body can end, put by the instructions that it
dispatches: only a last one can be the end of the body or trap, and there may be
none to dispatch. -/
inductive Ends (index : UInt32) (body : List UInt8) : List (Nat × Opcode) → Except Fault Unit → Prop
  | returned {cursor : Nat} : Ends index body [(cursor, .endBody)] (.ok ())
  | trapped {cursor : Nat} {b : UInt8} {op : Opcode} {trap : Trap} :
    Opcode.Boundary body cursor → body[cursor]? = some b → Opcode.ofByte? b = some op → op ≠ .endBody →
      trap ≠ .endOfBody → Ends index body [(cursor, op)] (.error ⟨index, cursor, trap⟩)
  | unknown {cursor : Nat} {b : UInt8} :
    Opcode.Boundary body cursor → body[cursor]? = some b → Opcode.ofByte? b = none →
      Ends index body [] (.error ⟨index, cursor, .invalidOpcode b⟩)
  | ended {cursor : Nat} :
    Opcode.Boundary body cursor → cursor = body.length → Ends index body [] (.error ⟨index, cursor, .endOfBody⟩)
  | exhausted {cursor : Nat} :
    Opcode.Boundary body cursor → Ends index body [] (.error ⟨index, cursor, .budgetExhausted⟩)
  | cons {cursor : Nat} {op : Opcode} {dispatched : List (Nat × Opcode)} {outcome : Except Fault Unit} :
    op ≠ .endBody → Ends index body dispatched outcome → Ends index body ((cursor, op) :: dispatched) outcome

theorem Inside.current?_eq (h : t.Inside index body) : t.current.current? = body[t.current.cursor]? := by
  rw [Pointer.current?, t.current.rest_eq, h.body_eq, List.head?_drop]

theorem Inside.ends_of_fetch_error (h : t.Inside index body) {trap : Trap} (hfetch : t.fetch budget = .error trap) :
    Ends index body [] (.error (t.current.fault trap)) := by
  rw [Pointer.fault, h.functionIndex_eq]
  rw [fetch, h.current?_eq] at hfetch
  split at hfetch
  · cases hfetch
    exact .exhausted h.boundary
  · split at hfetch
    · next hnone =>
      cases hfetch
      exact .ended h.boundary (Nat.le_antisymm h.boundary.le_length (List.getElem?_eq_none_iff.1 hnone))
    · next b hb =>
      split at hfetch
      · next hop =>
        cases hfetch
        exact .unknown h.boundary hb hop
      · cases hfetch

theorem Inside.ends (h : t.Inside index body) (budget : Option Nat) :
    Ends index body (t.dispatched budget) (t.run budget).1 := by
  induction t using run.induct budget with
  | case1 t t' hturn ih =>
    obtain ⟨op, -, hop, -⟩ := exists_exec_of_more hturn
    have hpasses := h.turn hop
    rw [hturn] at hpasses
    cases hpasses with
    | more hne hinside =>
      rw [dispatched_of_more hturn, run_of_more hturn, hop]
      exact .cons hne (ih hinside)
  | case2 t outcome t' hturn =>
    rw [dispatched_of_stop hturn, run_of_stop hturn]
    cases hop : t.fetch budget with
    | error trap =>
      rw [turn_of_fetch_error hop] at hturn
      cases hturn
      exact h.ends_of_fetch_error hop
    | ok op =>
      obtain ⟨-, b, hb, hopcode⟩ := fetch_eq_ok_iff.1 hop
      have hunbounded : t.fetch none = .ok op := fetch_eq_ok_iff.2 ⟨by simp, b, hb, hopcode⟩
      rw [h.current?_eq] at hb
      have hpasses := h.turn hop
      rw [hturn] at hpasses
      cases hpasses with
      | returned => exact .returned
      | trapped hne =>
        refine .trapped h.boundary hb hopcode hne ?_
        -- only where nothing is fetched the body is said to end
        rintro rfl
        rw [turn_eq_of_fetch hop] at hturn
        obtain ⟨trap, hfetch⟩ := (trap_of_stop hturn).2.1 rfl
        cases hunbounded.symm.trans hfetch

variable {dispatched : List (Nat × Opcode)}

theorem Ends.placed {fault : Fault} (h : Ends index body dispatched (.error fault)) :
    fault.Placed index body dispatched ∧ ∀ cursor, (cursor, .endBody) ∉ dispatched := by
  generalize houtcome : Except.error fault = outcome at h
  induction h with
  | returned => cases houtcome
  | @trapped cursor b op trap hboundary hb hop hne htrap =>
    cases houtcome
    refine ⟨⟨rfl, hboundary, hboundary.le_length, fun hend => absurd hend htrap,
      fun _ _ => ⟨b, hb, .inr ⟨op, hop, rfl⟩⟩⟩, fun cursor' hmem => ?_⟩
    simp only [List.mem_singleton, Prod.mk.injEq] at hmem
    exact hne hmem.2.symm
  | @unknown cursor b hboundary hb hop =>
    cases houtcome
    exact ⟨⟨rfl, hboundary, hboundary.le_length, nofun, fun _ _ => ⟨b, hb, .inl ⟨rfl, hop⟩⟩⟩,
      fun _ => List.not_mem_nil⟩
  | ended hboundary hlength =>
    cases houtcome
    exact ⟨⟨rfl, hboundary, hboundary.le_length, fun _ => hlength, fun hend => absurd rfl hend⟩,
      fun _ => List.not_mem_nil⟩
  | exhausted hboundary =>
    cases houtcome
    exact ⟨⟨rfl, hboundary, hboundary.le_length, nofun, fun _ hbudget => absurd rfl hbudget⟩,
      fun _ => List.not_mem_nil⟩
  | @cons cursor op dispatched outcome hne h ih =>
    obtain ⟨hplaced, hnever⟩ := ih houtcome
    refine ⟨{ hplaced with opcode := fun hend hbudget => ?_ }, fun cursor' hmem => ?_⟩
    · obtain ⟨b, hb, hunknown | ⟨op', hop', hlast⟩⟩ := hplaced.opcode hend hbudget
      · exact ⟨b, hb, .inl hunknown⟩
      · exact ⟨b, hb, .inr ⟨op', hop', by rw [List.getLast?_cons, hlast]; rfl⟩⟩
    · rcases List.mem_cons.1 hmem with heq | hmem
      · cases heq
        exact hne rfl
      · exact hnever cursor' hmem

theorem Ends.exists_endBody (h : Ends index body dispatched (.ok ())) :
    ∃ cursor, (cursor, .endBody) ∈ dispatched := by
  generalize houtcome : Except.ok () = outcome at h
  induction h with
  | @returned cursor => exact ⟨cursor, List.mem_singleton_self _⟩
  | trapped | unknown | ended | exhausted => cases houtcome
  | cons _ _ ih =>
    obtain ⟨cursor, hmem⟩ := ih houtcome
    exact ⟨cursor, List.mem_cons_of_mem _ hmem⟩

end Thread

/-! ## Executions -/

namespace Interpreter

variable {vm : Interpreter} {m : Module} {c : Config} {index : UInt32} {f : Function} {t : Thread}

theorem inside_of_enter {arguments : List Int32} (h : vm.enter index f arguments = .ok t) :
    t.Inside index f.body := by
  obtain ⟨hlaidOut, rfl⟩ := eq_within_of_enter h
  exact ⟨hlaidOut, ⟨_, _, rfl⟩, rfl, rfl, .start⟩

/-- A function that is entered returns at the end of its body, or faults. -/
theorem outcome_of_enter (hstart : m.startFunction c.startFunction = .ok (index, f))
    (henter : vm.enter index f c.initialValues = .ok t) :
    (∃ r, vm.execute m c = .ok r ∧ ∃ cursor, (cursor, .endBody) ∈ vm.dispatched m c) ∨
    ∃ fault, vm.execute m c = .error (.fault fault) ∧ fault.Placed index f.body (vm.dispatched m c) ∧
      ∀ cursor, (cursor, .endBody) ∉ vm.dispatched m c := by
  have hends := (inside_of_enter henter).ends vm.maxInstructions
  rw [execute_of_enter hstart henter, dispatched_of_enter hstart henter]
  rcases hrun : t.run vm.maxInstructions with ⟨fault | _, t'⟩
  · rw [hrun] at hends
    exact .inr ⟨fault, rfl, hends.placed⟩
  · rw [hrun] at hends
    exact .inl ⟨_, rfl, hends.exists_endBody⟩

/-- An execution by an interpreter with the bounds of any configuration, put by what
the module exports under the name to start. It fails before it starts just if that
is nothing, or nothing with code. Otherwise it faults at the start if there is no
room for the locals, and if there is, it returns or faults where an instruction of
the body starts or should start. It returns just if it gets to the end of a body. -/
theorem execute_outcome {c₀ : Config} (hvm : ofConfig c₀ = .ok vm) (hm : m.Built) (c : Config) :
    (∀ name, vm.execute m c = .error (.missingFunction name) ↔
      name = c.startFunction ∧ ¬ ∃ e, m.Exports c.startFunction e) ∧
    ((∃ error, vm.execute m c = .error error ∧ error.IsMissingStart) ↔
      ∃ e, m.Exports c.startFunction e ∧
        (e.kind ≠ .func ∨ ∀ functions, m.Last (.code functions) → functions.length ≤ e.index.toNat)) ∧
    ∀ e functions f, m.Exports c.startFunction e → e.kind = .func →
      m.Last (.code functions) → functions[e.index.toNat]? = some f →
      (vm.dataCapacity < c.initialValues.length + f.locals.length →
        vm.execute m c = .error (.fault ⟨e.index, 0, .stackOverflow vm.dataCapacity⟩) ∧
        vm.dispatched m c = []) ∧
      (c.initialValues.length + f.locals.length ≤ vm.dataCapacity →
        (∃ r, vm.execute m c = .ok r ∧ ∃ cursor, (cursor, .endBody) ∈ vm.dispatched m c) ∨
        ∃ fault, vm.execute m c = .error (.fault fault) ∧
          fault.Placed e.index f.body (vm.dispatched m c) ∧
          ∀ cursor, (cursor, .endBody) ∉ vm.dispatched m c) := by
  refine ⟨fun name => ?_, ?_, fun e functions f he hkind hcode hf => ?_⟩
  · rw [execute_eq_error_iff (by simp), Module.startFunction_eq_missingFunction_iff,
      Option.eq_none_iff_forall_ne_some]
    simp only [ne_eq, hm.indexed.findExport?_eq_some_iff, not_exists]
  · have hbefore : (∃ error, vm.execute m c = .error error ∧ error.IsMissingStart) ↔
        ∃ error, m.startFunction c.startFunction = .error error ∧ error.IsMissingStart := by
      refine exists_congr fun error => and_congr_left fun hmissing => execute_eq_error_iff ?_
      rintro fault rfl
      exact hmissing
    rw [hbefore, Module.exists_isMissingStart_iff]
    simp only [hm.indexed.findExport?_eq_some_iff, hm.indexed.function?_eq_none_iff]
  · have hstart : m.startFunction c.startFunction = .ok (e.index, f) :=
      Module.startFunction_of_findExport? (hm.indexed.findExport?_eq_some_iff.2 he) hkind
        (hm.indexed.function?_eq_some_iff.2 ⟨functions, hcode, hf⟩)
    have henter := vm.enter_eq e.index f c.initialValues
    constructor
    · intro hfull
      rw [if_neg (Nat.not_le_of_lt hfull)] at henter
      rw [execute_of_startFunction hstart, dispatched_eq vm hstart, call, henter]
      exact ⟨rfl, rfl⟩
    · intro hroom
      rw [if_pos hroom, if_pos (callCapacity_pos hvm)] at henter
      exact outcome_of_enter hstart henter

/-- A sum with one operand too few, exported under a name that stands for other
things elsewhere. It faults at the second addition, behind a constant of two bytes, and
at the start where there is no room for its local. -/
theorem execute_outcome_sum :
    let f : Function := ⟨[.i32], [0x20, 0x00, 0x41, 0x83, 0x00, 0x6a, 0x6a, 0x0b]⟩
    let sections : List Section := [.exports [⟨"f", .memory, 0⟩], .code [f],
      .exports [⟨"f", .func, 0⟩, ⟨"f", .func, 1⟩, ⟨"g", .func, 1⟩]]
    let m := Module.ofSections "m" sections
    let c : Config := ⟨"f", [5], 8, 1, none⟩
    let vm : Interpreter := ⟨8, 1, none⟩
    let small : Interpreter := ⟨1, 1, none⟩
    ofConfig c = .ok vm ∧ ofConfig { c with dataCapacity := 1 } = .ok small ∧
      (∃ fault, vm.execute m c = .error (.fault fault) ∧ fault = ⟨0, 6, .stackUnderflow⟩ ∧
        Opcode.Boundary f.body fault.cursor ∧ f.body[fault.cursor]? = some 0x6a) ∧
      small.execute m c = .error (.fault ⟨0, 0, .stackOverflow 1⟩) ∧
      (∃ error, vm.execute m { c with startFunction := "g" } = .error error ∧ error.IsMissingStart) ∧
      vm.execute m { c with startFunction := "h" } = .error (.missingFunction "h") := by
  intro f sections m c vm small
  have hvm : ofConfig c = .ok vm := rfl
  have hsmall : ofConfig { c with dataCapacity := 1 } = .ok small := rfl
  have hm : m.Built := Module.built_ofSections "m" sections
  have hsections : m.sections.toList = sections := toList_sections_ofSections "m" sections
  have hexports : m.Last (.exports [⟨"f", .func, 0⟩, ⟨"f", .func, 1⟩, ⟨"g", .func, 1⟩]) :=
    ⟨[.exports [⟨"f", .memory, 0⟩], .code [f]], [], hsections, by simp⟩
  have hcode : m.Last (.code [f]) :=
    ⟨[.exports [⟨"f", .memory, 0⟩]], [.exports [⟨"f", .func, 0⟩, ⟨"f", .func, 1⟩, ⟨"g", .func, 1⟩]], hsections,
      by decide⟩
  have hf : m.Exports "f" ⟨"f", .func, 0⟩ := ⟨_, hexports, rfl, [], _, rfl, by simp⟩
  have hg : m.Exports "g" ⟨"g", .func, 1⟩ :=
    ⟨_, hexports, rfl, [⟨"f", .func, 0⟩, ⟨"f", .func, 1⟩], [], rfl, by decide⟩
  have hexecute : vm.execute m c = .error (.fault ⟨0, 6, .stackUnderflow⟩) := by
    have hstart : m.startFunction c.startFunction = .ok (0, f) :=
      Module.startFunction_of_findExport? (hm.indexed.findExport?_eq_some_iff.2 hf) rfl
        (hm.indexed.function?_eq_some_iff.2 ⟨[f], hcode, rfl⟩)
    have hcall : vm.call 0 f c.initialValues = .error ⟨0, 6, .stackUnderflow⟩ := by decide +kernel
    rw [execute_of_startFunction hstart, hcall]
    rfl
  refine ⟨hvm, hsmall, ?_, ?_, ?_, ?_⟩
  · have houtcome := ((execute_outcome hvm hm c).2.2 _ _ f hf rfl hcode rfl).2 (by decide)
    rw [hexecute] at houtcome
    rcases houtcome with ⟨r, hr, -⟩ | ⟨fault, hfault, hplaced, -⟩
    · cases hr
    · cases hfault
      exact ⟨_, hexecute, rfl, hplaced.boundary, rfl⟩
  · exact (((execute_outcome hsmall hm c).2.2 _ _ f hf rfl hcode rfl).1 (by decide)).1
  · refine (execute_outcome hvm hm _).2.1.2 ⟨_, hg, .inr fun functions hlast => ?_⟩
    have hsame := hm.indexed.code?_eq_some_iff.2 hlast
    rw [hm.indexed.code?_eq_some_iff.2 hcode] at hsame
    cases hsame
    decide
  · refine ((execute_outcome hvm hm _).1 "h").2 ⟨rfl, ?_⟩
    rintro ⟨e, entries, hlast, hname, before, after, hentries, -⟩
    have hsame := hm.indexed.exports?_eq_some_iff.2 hlast
    rw [hm.indexed.exports?_eq_some_iff.2 hexports] at hsame
    cases hsame
    have hmem : e ∈ before ++ e :: after := by simp
    rw [← hentries] at hmem
    simp only [List.mem_cons, List.not_mem_nil, or_false] at hmem
    rcases hmem with rfl | rfl | rfl <;> simp at hname

end Interpreter

end StackVm
