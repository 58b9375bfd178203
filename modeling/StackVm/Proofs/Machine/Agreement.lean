import StackVm.Proofs.Machine.SplitThread

/-!
# Instructions on flattened threads

What an instruction does to a thread, where locals stand on the data stack
among everything else, is what it does to the innermost activation, where they
stand apart (`SplitThread.agrees_exec`). `SplitThread.within` is the thread in
which an activation is innermost; the layout of its data stack is
`SplitThread.within_eq`, and all other lemmas follow from that:

* `requireOperands_within`, `push_within`, `pop_within`: the top of the data
  stack, down to the locals, is the operands;
* `localIndex_within`, `peek_local`, `poke_local`: a local is reached from the
  top, over the operands and the locals behind it;
* `endBody_within`: what stands above the locals is left to the caller.
-/

namespace StackVm

namespace Exec

variable {α β : Type} {action : Exec α} {next : α → Exec β} {t t' : Thread}

theorem bind_of_ok {a : α} (h : action t = .ok a t') : (action >>= next) t = next a t' := by
  simp only [bind, EStateM.bind, h]

theorem bind_of_error {e : Trap} (h : action t = .error e t') : (action >>= next) t = .error e t' := by
  simp only [bind, EStateM.bind, h]

theorem onData_bind {action : Stack.Action Value α} {next : α → Stack.Action Value β} :
    onData (action >>= next) = (onData action >>= fun a => onData (next a)) := by
  funext ⟨calls, data, current, executed⟩
  simp only [onData, bind, EStateM.bind]
  cases action data <;> rfl

end Exec

namespace SplitThread

theorem values_give (m : SplitThread) (operands : List Value) :
    (m.give operands).values = operands ++ m.values := by
  rcases m with ⟨_ | ⟨a, rest⟩, host, idle, executed, dataCapacity, callCapacity⟩
  · rfl
  · simp [give, values, Activation.values]

/-- Operands that are given stand at the top of the data stack. -/
theorem flatten_give (m : SplitThread) (operands : List Value) : (m.give operands).flatten =
    { m.flatten with data := .ofTopFirst (operands ++ m.values) m.dataCapacity } := by
  rw [← values_give]
  rcases m with ⟨_ | ⟨a, rest⟩, host, idle, executed, dataCapacity, callCapacity⟩
  · rfl
  · rfl

/-- The thread whose innermost call is `a`, called from `rest`. -/
def within (m : SplitThread) (rest : List Activation) (a : Activation) : Thread :=
  { m with activations := a :: rest }.flatten

variable (m : SplitThread) (rest : List Activation) (a : Activation)

/-- The values below those of the innermost call. -/
def below : List Value :=
  rest.flatMap Activation.values ++ m.host

theorem values_within : { m with activations := a :: rest }.values =
    a.operands ++ (a.locals.reverse ++ m.below rest) := by
  simp [values, below, Activation.values]

theorem within_eq : m.within rest a =
    ⟨.ofTopFirst (a.frame m.host rest :: Activation.frames m.host rest) m.callCapacity,
      .ofTopFirst (a.operands ++ (a.locals.reverse ++ m.below rest)) m.dataCapacity,
      a.pointer, m.executed⟩ := by
  rw [← values_within]
  rfl

theorem advance_within : Exec.advance (m.within rest a) = .ok () (m.within rest (a.skip 1)) := rfl

theorem operand_within : Exec.operand (m.within rest a) =
    match Leb128.read a.pointer.rest with
    | some g => .ok g (m.within rest (a.skip g.size))
    | none => .error .truncatedOperand (m.within rest (a.skip a.pointer.rest.length)) := by
  rfl

theorem frame_within : Exec.frame (m.within rest a) = .ok (a.frame m.host rest) (m.within rest a) := by
  have hpeek := Stack.peek_ofTopFirst [] (a.frame m.host rest) (Activation.frames m.host rest) m.callCapacity
  rw [within_eq]
  simp only [Exec.frame, Exec.onCalls]
  rw [List.length_nil, List.nil_append] at hpeek
  rw [hpeek]

theorem depth_within : Exec.depth (m.within rest a) =
    .ok (a.operands.length + (a.locals.length + (m.below rest).length)) (m.within rest a) := by
  rw [within_eq]
  simp [Exec.depth]

/-- Operands are what stands above the locals. -/
theorem requireOperands_within {count : Nat} (h : count ≤ a.operands.length) :
    Exec.requireOperands count (m.within rest a) = .ok () (m.within rest a) := by
  have hbase : (a.frame m.host rest).base = a.locals.length + (m.below rest).length := rfl
  rw [Exec.requireOperands, Exec.bind_of_ok (frame_within m rest a), Exec.bind_of_ok (depth_within m rest a),
    hbase, if_neg (by omega)]
  rfl

theorem requireOperands_within_of_lt {count : Nat} (h : a.operands.length < count) :
    Exec.requireOperands count (m.within rest a) = .error .stackUnderflow (m.within rest a) := by
  have hbase : (a.frame m.host rest).base = a.locals.length + (m.below rest).length := rfl
  rw [Exec.requireOperands, Exec.bind_of_ok (frame_within m rest a), Exec.bind_of_ok (depth_within m rest a),
    hbase, if_pos (by omega)]
  rfl

theorem push_within (v : Value) (h : (a.values ++ m.below rest).length < m.dataCapacity) :
    Exec.onData (Stack.push v) (m.within rest a) =
      .ok () (m.within rest { a with operands := v :: a.operands }) := by
  rw [Activation.values, List.append_assoc] at h
  simp only [within_eq, Exec.onData, Stack.push_ofTopFirst, if_pos h]
  rfl

theorem push_within_of_full (v : Value) (h : ¬(a.values ++ m.below rest).length < m.dataCapacity) :
    Exec.onData (Stack.push v) (m.within rest a) =
      .error (.stackOverflow m.dataCapacity) (m.within rest a) := by
  rw [Activation.values, List.append_assoc] at h
  simp only [within_eq, Exec.onData, Stack.push_ofTopFirst, if_neg h]

theorem pop_within (v : Value) (operands : List Value) (h : a.operands = v :: operands) :
    Exec.onData Stack.pop (m.within rest a) = .ok v (m.within rest { a with operands }) := by
  simp only [within_eq, Exec.onData, h, List.cons_append, Stack.pop_ofTopFirst_cons]
  rfl

theorem peek_within (v : Value) (operands : List Value) (h : a.operands = v :: operands) :
    Exec.onData (Stack.peek 0) (m.within rest a) = .ok v (m.within rest a) := by
  have hpeek := Stack.peek_ofTopFirst [] v (operands ++ (a.locals.reverse ++ m.below rest)) m.dataCapacity
  rw [List.length_nil, List.nil_append] at hpeek
  simp only [within_eq, Exec.onData, h, List.cons_append, hpeek]

/-! ## Locals -/

/-- A local stands below the operands and the locals behind it. -/
theorem localIndex_within {x : UInt32} {before after : List Value} {v : Value}
    (h : a.locals = before ++ v :: after) (hx : x.toNat = before.length) :
    Exec.localIndex x (m.within rest a) = .ok (a.operands ++ after.reverse).length (m.within rest a) := by
  have hlen : a.locals.length = before.length + (after.length + 1) := by
    rw [h, List.length_append, List.length_cons]
  have hslot : (a.frame m.host rest).localSlot? x = some ((m.below rest).length + before.length) := by
    have hbase : (a.frame m.host rest).base = a.locals.length + (m.below rest).length := rfl
    have hcount : (a.frame m.host rest).count = a.locals.length := rfl
    rw [CallFrame.localSlot?, hbase, hcount, if_neg (by omega), if_pos (by omega)]
    congr 1
    omega
  rw [Exec.localIndex, Exec.bind_of_ok (frame_within m rest a), hslot]
  show (Exec.depth >>= _) (m.within rest a) = _
  rw [Exec.bind_of_ok (depth_within m rest a), if_pos (by omega)]
  show EStateM.Result.ok _ _ = _
  rw [List.length_append, List.length_reverse]
  congr 1
  omega

theorem localIndex_within_of_le {x : UInt32} (h : a.locals.length ≤ x.toNat) :
    Exec.localIndex x (m.within rest a) = .error .stackUnderflow (m.within rest a) := by
  have hslot : (a.frame m.host rest).localSlot? x = none := by
    have hcount : (a.frame m.host rest).count = a.locals.length := rfl
    rw [CallFrame.localSlot?, hcount, if_pos h]
  rw [Exec.localIndex, Exec.bind_of_ok (frame_within m rest a), hslot]
  rfl

theorem peek_local {before after : List Value} {v : Value} (h : a.locals = before ++ v :: after) :
    Exec.onData (Stack.peek (a.operands ++ after.reverse).length) (m.within rest a) =
      .ok v (m.within rest a) := by
  have hlayout : a.operands ++ (a.locals.reverse ++ m.below rest) =
      a.operands ++ after.reverse ++ v :: (before.reverse ++ m.below rest) := by
    simp [h]
  simp only [within_eq, Exec.onData, hlayout, Stack.peek_ofTopFirst]

theorem poke_local {before after : List Value} {v : Value} (h : a.locals = before ++ v :: after)
    (w : Value) : Exec.onData (Stack.poke (a.operands ++ after.reverse).length w) (m.within rest a) =
      .ok () (m.within rest { a with locals := a.locals.set before.length w }) := by
  have hset : a.locals.set before.length w = before ++ w :: after := by
    simp [h]
  have hlayout : ∀ u, a.operands ++ ((before ++ u :: after).reverse ++ m.below rest) =
      a.operands ++ after.reverse ++ u :: (before.reverse ++ m.below rest) := by
    intro u
    simp
  have hframe : Activation.frame m.host rest { a with locals := before ++ w :: after } =
      a.frame m.host rest := by
    simp [Activation.frame, h]
  rw [hset]
  simp only [within_eq, Exec.onData, h, hlayout, Stack.poke_ofTopFirst, hframe]

/-! ## Instructions -/

/-- What an instruction does to the thread within which `a` is innermost, put
by what it makes of `a`. -/
def Agrees (result : EStateM.Result Trap Thread Progress) : Except Trap (Option Activation) → Prop
  | .ok (some a') => result = .ok .next (m.within rest a')
  | .ok none => result = .ok .returned (m.leave a rest).flatten
  | .error trap => ∃ t, result = .error trap t

variable {m rest a}

theorem agrees_immediate {β : Type} {convert : Leb128.Groups → β} {next : β → Exec Progress}
    {expected : Leb128.Groups × Activation → Except Trap (Option Activation)}
    (h : ∀ g a', a'.locals = a.locals → a'.operands = a.operands →
      m.Agrees rest a (next (convert g) (m.within rest a')) (expected (g, a'))) :
    m.Agrees rest a
      ((do Exec.advance; let b ← (do return convert (← Exec.operand)); next b) (m.within rest a))
      (a.immediate >>= expected) := by
  rw [Exec.bind_of_ok (advance_within m rest a)]
  have hoperand := operand_within m rest (a.skip 1)
  rw [Activation.immediate]
  cases hread : Leb128.read (a.skip 1).pointer.rest with
  | none =>
    rw [hread] at hoperand
    exact ⟨_, Exec.bind_of_error (Exec.bind_of_error hoperand)⟩
  | some g =>
    rw [hread] at hoperand
    have hconvert : (do return convert (← Exec.operand)) (m.within rest (a.skip 1)) =
        .ok (convert g) (m.within rest ((a.skip 1).skip g.size)) := by
      rw [Exec.bind_of_ok hoperand]
      rfl
    rw [Exec.bind_of_ok hconvert]
    exact h g _ rfl rfl

theorem agrees_push (v : Value) (a' : Activation) (hvalues : a'.values = a.values) :
    m.Agrees rest a ((do Exec.onData (Stack.push v); return Progress.next) (m.within rest a'))
      (do
        SplitThread.room { m with activations := a :: rest }
        return some { a' with operands := v :: a'.operands }) := by
  have hlen : { m with activations := a :: rest }.values = a'.values ++ m.below rest := by
    rw [values_within, hvalues, Activation.values, List.append_assoc]
  rw [room, hlen]
  by_cases hroom : (a'.values ++ m.below rest).length < m.dataCapacity
  · rw [if_pos hroom, Exec.bind_of_ok (push_within m rest a' v hroom)]
    rfl
  · rw [if_neg hroom, Exec.bind_of_error (push_within_of_full m rest a' v hroom)]
    exact ⟨_, rfl⟩

theorem exists_split_of_getElem? {locals : List Value} {x : Nat} {v : Value} (h : locals[x]? = some v) :
    ∃ before after, locals = before ++ v :: after ∧ x = before.length := by
  obtain ⟨hx, rfl⟩ := List.getElem?_eq_some_iff.1 h
  refine ⟨locals.take x, locals.drop (x + 1), ?_, ?_⟩
  · rw [← List.drop_eq_getElem_cons hx, List.take_append_drop]
  · rw [List.length_take, Nat.min_eq_left (Nat.le_of_lt hx)]

theorem agrees_localGet : m.Agrees rest a (Opcode.localGet.exec (m.within rest a))
    (a.exec (SplitThread.room { m with activations := a :: rest }) .localGet) := by
  refine agrees_immediate fun g a' hlocals hoperands => ?_
  have hvalues : a'.values = a.values := by simp only [Activation.values, hlocals, hoperands]
  cases hget : a'.locals[g.unsigned.toNat]? with
  | none =>
    rw [Exec.bind_of_error (localIndex_within_of_le m rest a' (List.getElem?_eq_none_iff.1 hget))]
    simp only [hget]
    exact ⟨_, rfl⟩
  | some v =>
    obtain ⟨before, after, hsplit, hx⟩ := exists_split_of_getElem? hget
    rw [Exec.bind_of_ok (localIndex_within m rest a' hsplit hx),
      Exec.bind_of_ok (peek_local m rest a' hsplit)]
    simp only [hget]
    exact agrees_push v a' hvalues

/-- Writing a local, from where `a'` stands. -/
theorem agrees_poke (x : UInt32) (v : Value) (a' : Activation) :
    m.Agrees rest a
      ((do Exec.onData (Stack.poke (← Exec.localIndex x) v); return Progress.next) (m.within rest a'))
      (if x.toNat < a'.locals.length then
        return some { a' with locals := a'.locals.set x.toNat v }
      else throw .stackUnderflow) := by
  by_cases hlt : x.toNat < a'.locals.length
  · obtain ⟨before, after, hsplit, hx⟩ := exists_split_of_getElem? (List.getElem?_eq_getElem hlt)
    rw [if_pos hlt, Exec.bind_of_ok (localIndex_within m rest a' hsplit hx),
      Exec.bind_of_ok (poke_local m rest a' hsplit v), ← hx]
    rfl
  · rw [if_neg hlt, Exec.bind_of_error (localIndex_within_of_le m rest a' (Nat.le_of_not_lt hlt))]
    exact ⟨_, rfl⟩

/-- An instruction that needs an operand, from where `a'` stands. -/
theorem agrees_requireOperands_one {a' : Activation} {next : Unit → Exec Progress}
    {expected : Value → List Value → Except Trap (Option Activation)}
    (h : ∀ v operands, a'.operands = v :: operands →
      m.Agrees rest a (next () (m.within rest a')) (expected v operands)) :
    m.Agrees rest a ((Exec.requireOperands 1 >>= next) (m.within rest a'))
      (match a'.operands with
      | [] => throw .stackUnderflow
      | v :: operands => expected v operands) := by
  match hoperands : a'.operands with
  | [] =>
    have hnone : a'.operands.length < 1 := by rw [hoperands]; decide
    rw [Exec.bind_of_error (requireOperands_within_of_lt m rest a' hnone)]
    exact ⟨_, rfl⟩
  | v :: operands =>
    have hsome : 1 ≤ a'.operands.length := by rw [hoperands]; exact Nat.succ_pos _
    rw [Exec.bind_of_ok (requireOperands_within m rest a' hsome)]
    exact h v operands hoperands

theorem agrees_drop : m.Agrees rest a (Opcode.drop.exec (m.within rest a))
    (a.exec (SplitThread.room { m with activations := a :: rest }) .drop) := by
  show m.Agrees rest a ((Exec.advance >>= _) (m.within rest a)) _
  rw [Exec.bind_of_ok (advance_within m rest a)]
  refine agrees_requireOperands_one fun v operands hoperands => ?_
  rw [Exec.bind_of_ok (pop_within m rest (a.skip 1) v operands hoperands)]
  rfl

theorem agrees_localSet : m.Agrees rest a (Opcode.localSet.exec (m.within rest a))
    (a.exec (SplitThread.room { m with activations := a :: rest }) .localSet) := by
  refine agrees_immediate fun g a' _ _ => ?_
  refine agrees_requireOperands_one fun v operands hoperands => ?_
  rw [Exec.bind_of_ok (pop_within m rest a' v operands hoperands)]
  exact agrees_poke g.unsigned v { a' with operands }

theorem agrees_localTee : m.Agrees rest a (Opcode.localTee.exec (m.within rest a))
    (a.exec (SplitThread.room { m with activations := a :: rest }) .localTee) := by
  refine agrees_immediate fun g a' _ _ => ?_
  refine agrees_requireOperands_one fun v operands hoperands => ?_
  rw [Exec.bind_of_ok (peek_within m rest a' v operands hoperands)]
  exact agrees_poke g.unsigned v a'

theorem agrees_i32Const : m.Agrees rest a (Opcode.i32Const.exec (m.within rest a))
    (a.exec (SplitThread.room { m with activations := a :: rest }) .i32Const) := by
  refine agrees_immediate fun g a' hlocals hoperands => ?_
  exact agrees_push (.i32 g.signed) a' (by simp only [Activation.values, hlocals, hoperands])

theorem popI32_within {v : Value} {operands : List Value} (h : a.operands = v :: operands) :
    Exec.onData Stack.popI32 (m.within rest a) =
      match Activation.number v with
      | .ok n => .ok n (m.within rest { a with operands })
      | .error trap => .error trap (m.within rest { a with operands }) := by
  rw [Stack.popI32, Exec.onData_bind, Exec.bind_of_ok (pop_within m rest a v operands h)]
  cases v <;> rfl

theorem agrees_popI32 {a' : Activation} {v : Value} {operands : List Value}
    {next : Int32 → Exec Progress} {expected : Int32 → Except Trap Activation}
    (h : a'.operands = v :: operands)
    (hnext : ∀ n, m.Agrees rest a (next n (m.within rest { a' with operands })) (some <$> expected n)) :
    m.Agrees rest a ((Exec.onData Stack.popI32 >>= next) (m.within rest a'))
      (some <$> (Activation.number v >>= expected)) := by
  have hpop := @popI32_within m rest a' v operands h
  cases hv : Activation.number v with
  | error trap =>
    rw [hv] at hpop
    exact ⟨_, Exec.bind_of_error hpop⟩
  | ok n =>
    rw [hv] at hpop
    rw [Exec.bind_of_ok hpop]
    exact hnext n

/-- The result takes the place of an operand, so it always has room. -/
theorem agrees_binary (op : Int32 → Int32 → Int32)
    (hcap : (a.values ++ m.below rest).length ≤ m.dataCapacity) :
    m.Agrees rest a (Exec.binary op (m.within rest a)) (some <$> a.binary op) := by
  rw [Exec.binary, Exec.bind_of_ok (advance_within m rest a), Activation.binary]
  match h : a.operands with
  | [] | [_] =>
    have hfew : (a.skip 1).operands.length < 2 := by
      show a.operands.length < 2
      simp [h]
    rw [Exec.bind_of_error (requireOperands_within_of_lt m rest (a.skip 1) hfew)]
    exact ⟨_, rfl⟩
  | v₂ :: v₁ :: operands =>
    have htwo : 2 ≤ (a.skip 1).operands.length := by
      show 2 ≤ a.operands.length
      simp [h]
    have hroom : (Activation.values { a.skip 1 with operands } ++ m.below rest).length <
        m.dataCapacity := by
      simp only [Activation.values, h, List.length_append, List.length_cons] at hcap
      simp only [Activation.values, List.length_append]
      show _ + a.locals.reverse.length + _ < _
      omega
    rw [Exec.bind_of_ok (requireOperands_within m rest (a.skip 1) htwo)]
    refine agrees_popI32 h fun n₂ => agrees_popI32 rfl fun n₁ => ?_
    rw [Exec.bind_of_ok (push_within m rest _ _ hroom)]
    rfl

theorem dropLocals_frame (calls : Stack CallFrame) (p : Pointer) (executed : Nat) :
    Exec.dropLocals (a.frame m.host rest)
        ⟨calls, .ofTopFirst (a.values ++ m.below rest) m.dataCapacity, p, executed⟩ =
      .ok () ⟨calls, .ofTopFirst (a.operands ++ m.below rest) m.dataCapacity, p, executed⟩ := by
  have hbase : (a.frame m.host rest).base = a.locals.reverse.length + (m.below rest).length := by
    rw [List.length_reverse]
    rfl
  have hstart : (a.frame m.host rest).base - (a.frame m.host rest).count = (m.below rest).length := by
    show a.locals.length + (m.below rest).length - a.locals.length = _
    omega
  simp only [Exec.dropLocals, hstart]
  by_cases hnone : a.locals = []
  · rw [if_neg (by simp [hbase, hnone])]
    rw [Activation.values, hnone, List.reverse_nil, List.append_nil]
    rfl
  · have hpos : 0 < a.locals.length := List.length_pos_iff.2 hnone
    rw [if_pos (by rw [hbase, List.length_reverse]; omega), hbase]
    simp only [Exec.onData, Activation.values, Stack.discard_ofTopFirst]

theorem endBody_within : Exec.endBody (m.within rest a) = .ok .returned (m.leave a rest).flatten := by
  have hpop : Exec.onCalls Stack.pop (m.within rest a) = .ok (a.frame m.host rest)
      ⟨.ofTopFirst (Activation.frames m.host rest) m.callCapacity,
        .ofTopFirst (a.values ++ m.below rest) m.dataCapacity, a.pointer, m.executed⟩ := by
    rw [within_eq, Activation.values, List.append_assoc]
    simp only [Exec.onCalls, Stack.pop_ofTopFirst_cons]
  rw [Exec.endBody, Exec.bind_of_ok hpop, Exec.bind_of_ok (dropLocals_frame _ _ _), leave, flatten_give]
  cases rest with
  | nil => rfl
  | cons b rest => rfl

theorem agrees_exec (hcap : (a.values ++ m.below rest).length ≤ m.dataCapacity) (op : Opcode) :
    m.Agrees rest a (op.exec (m.within rest a))
      (a.exec (SplitThread.room { m with activations := a :: rest }) op) := by
  cases op with
  | unreachable => exact ⟨_, rfl⟩
  | nop => exact Exec.bind_of_ok (advance_within m rest a)
  | endBody => exact endBody_within
  | drop => exact agrees_drop
  | localGet => exact agrees_localGet
  | localSet => exact agrees_localSet
  | localTee => exact agrees_localTee
  | i32Const => exact agrees_i32Const
  | i32Add => exact agrees_binary _ hcap
  | i32Sub => exact agrees_binary _ hcap
  | i32Mul => exact agrees_binary _ hcap

end SplitThread

end StackVm
