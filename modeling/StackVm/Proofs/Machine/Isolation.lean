import StackVm.Proofs.Machine.Layout
import StackVm.Proofs.Machine.Turns

/-!
# Calls do not depend on their context

A function that is called on a thread does what it does on a fresh thread
which has as much room: it succeeds and fails alike, takes as many
instructions, and leaves what was there before as it was
(`Thread.call_eq_fresh_call`).

* `Thread.LaidOut.exists_flatten`: a thread whose calls are laid out is a
  machine with locals apart from operands, on shared stacks;
* `Activation.next_mapError`: an activation goes on alike wherever it has the
  same room, but for the capacity that a lack of room names;
* `SplitThread.endsAlike_within`: so a call comes to the same end within any
  machine.
-/

namespace StackVm

/-! ## Threads as machines with locals apart -/

open CallFrame (Nested)

/-- Values below which frames are nested fall into operands of the host, and
for each frame its locals and its operands. -/
theorem CallFrame.Nested.exists_activations {frames : List CallFrame} {values : List Value}
    (h : Nested frames values.length) (p : Pointer) :
    ∃ activations host, Activation.frames host activations = frames ∧
      activations.flatMap Activation.values ++ host = values ∧
      ∀ a ∈ activations.head?, a.pointer = p := by
  generalize hdepth : values.length = depth at h
  induction h generalizing values p with
  | nil => exact ⟨[], values, rfl, rfl, nofun⟩
  | @cons f below depth hcount hbase hcaller _ ih =>
    -- above the locals stand the operands, and below them the values of the other frames
    obtain ⟨rest, hrest, hlen⟩ : ∃ rest, rest = values.drop (depth - f.base + f.count) ∧
        rest.length = f.base - f.count := ⟨_, rfl, by rw [List.length_drop]; omega⟩
    obtain ⟨activations, host, hframes, hvalues, hpointer⟩ := ih (f.caller.getD p) hlen
    let a : Activation :=
      { pointer := p
        locals := ((values.drop (depth - f.base)).take f.count).reverse
        operands := values.take (depth - f.base) }
    have hlocals : a.locals.length = f.count := by
      simp only [a, List.length_reverse, List.length_take, List.length_drop]
      omega
    have hpointers : activations.head?.map Activation.pointer = f.caller := by
      cases activations with
      | nil => exact (hcaller.2 hframes.symm).symm
      | cons b activations =>
        have hsome : f.caller ≠ none := fun hnone => by
          rw [hcaller.1 hnone] at hframes
          cases hframes
        obtain ⟨q, hq⟩ := Option.ne_none_iff_exists'.1 hsome
        rw [List.head?_cons, Option.map_some, hpointer b rfl, hq, Option.getD_some]
    refine ⟨a :: activations, host, ?_, ?_, ?_⟩
    · have hframe : a.frame host activations = f := by
        rw [Activation.frame, hpointers, hvalues, hlocals, hlen, Nat.add_sub_cancel' hcount]
      rw [Activation.frames, hframes, hframe]
    · rw [List.flatMap_cons, List.append_assoc, hvalues, hrest, Activation.values]
      simp only [a, List.reverse_reverse, List.append_assoc]
      rw [← List.drop_drop, List.take_append_drop, List.take_append_drop]
    · intro b hb
      cases hb
      rfl

/-- A thread whose calls are laid out is a machine with locals apart from
operands. -/
theorem Thread.LaidOut.exists_flatten {t : Thread} (h : t.LaidOut) :
    ∃ m : SplitThread, t = m.flatten := by
  obtain ⟨calls, data, current, executed⟩ := t
  have hnested : Nested calls.toListTopFirst data.toListTopFirst.length := by
    rw [Stack.length_toListTopFirst]
    exact h.nested
  obtain ⟨activations, host, hframes, hvalues, hpointer⟩ := hnested.exists_activations current
  refine ⟨⟨activations, host, current, executed, data.capacity, calls.capacity⟩, ?_⟩
  have hcurrent : SplitThread.current ⟨activations, host, current, executed, data.capacity,
      calls.capacity⟩ = current := by
    cases activations with
    | nil => rfl
    | cons a activations => exact hpointer a rfl
  rw [SplitThread.flatten, SplitThread.values, hframes, hvalues, hcurrent,
    calls.ofTopFirst_toListTopFirst, data.ofTopFirst_toListTopFirst]

/-! ## One call in two places -/

/-- The trap, with another capacity if it is one of lack of room. -/
def Trap.resized (capacity : Nat) : Trap → Trap
  | stackOverflow _ => .stackOverflow capacity
  | trap => trap

namespace Activation

variable {capacity : Nat} {room : Except Trap Unit} {a : Activation}

theorem immediate_bind_mapError {β : Type} {f g : Leb128.Groups × Activation → Except Trap β}
    (h : ∀ x a', f (x, a') = (g (x, a')).mapError (Trap.resized capacity)) :
    (a.immediate >>= f) = (a.immediate >>= g).mapError (Trap.resized capacity) := by
  rw [immediate]
  cases Leb128.read (a.skip 1).pointer.rest with
  | none => rfl
  | some g => exact h _ _

theorem room_bind_mapError {β : Type} (b : β) :
    (do room.mapError (Trap.resized capacity); return b) =
      (do room; return b : Except Trap β).mapError (Trap.resized capacity) := by
  cases room <;> rfl

theorem binary_mapError (op : Int32 → Int32 → Int32) :
    some <$> a.binary op = (some <$> a.binary op).mapError (Trap.resized capacity) := by
  rw [binary]
  rcases a.operands with _ | ⟨v₂, _ | ⟨v₁, operands⟩⟩
  · rfl
  · rfl
  · cases v₂ <;> cases v₁ <;> rfl

/-- Only a lack of room names a capacity. -/
theorem exec_mapError (op : Opcode) :
    a.exec (room.mapError (Trap.resized capacity)) op =
      (a.exec room op).mapError (Trap.resized capacity) := by
  cases op with
  | unreachable | nop | endBody => rfl
  | drop =>
    simp only [exec]
    cases a.operands <;> rfl
  | localGet =>
    refine immediate_bind_mapError fun x a' => ?_
    simp only
    cases a'.locals[x.unsigned.toNat]? with
    | none => rfl
    | some v => exact room_bind_mapError _
  | localSet | localTee =>
    refine immediate_bind_mapError fun x a' => ?_
    simp only
    cases a'.operands with
    | nil => rfl
    | cons v operands =>
      by_cases hlt : x.unsigned.toNat < a'.locals.length
      · simp only [if_pos hlt]
        rfl
      · simp only [if_neg hlt]
        rfl
  | i32Const => exact immediate_bind_mapError fun c a' => room_bind_mapError _
  | i32Add | i32Sub | i32Mul => exact binary_mapError _

theorem next_mapError :
    a.next (room.mapError (Trap.resized capacity)) = (a.next room).mapError (Trap.resized capacity) := by
  rw [next, next]
  cases a.pointer.current? with
  | none => rfl
  | some b =>
    simp only
    cases Opcode.ofByte? b with
    | none => rfl
    | some op => exact exec_mapError op

end Activation

namespace Thread

/-- Takes turns, without a budget, until no more than `depth` calls are under
way or an instruction traps. The last turn is that of the instruction which
ends a call. -/
def runDownTo (depth : Nat) (t : Thread) : Except Fault Unit × Thread :=
  match _h : t.turn none with
  | .more t' => if t'.calls.depth ≤ depth then (.ok (), t') else runDownTo depth t'
  | .stop outcome t' => (outcome, t')
termination_by t.left
decreasing_by exact left_turn _h

/-- How a call ends that was made on the thread `t`, put by how the same call
ends on a fresh thread: the place of a fault and the number of instructions are
the same, and a call that returns has put its results on top of `t`. -/
inductive EndsAlike (t : Thread) : Except Fault Unit × Thread → Except Fault Unit × Thread → Prop
  | returned {t₁ t₂ : Thread} :
    t₁.executed = t.executed + t₂.executed → t₁.data.items = t.data.items ++ t₂.data.items →
      t₁.calls = t.calls → (1 ≤ t.calls.depth → t₁.current = t.current) →
      EndsAlike t (.ok (), t₁) (.ok (), t₂)
  | faulted {t₁ t₂ : Thread} {fault : Fault} :
    t₁.executed = t.executed + t₂.executed →
      EndsAlike t (.error { fault with trap := fault.trap.resized t.data.capacity }, t₁) (.error fault, t₂)

variable {t t' : Thread} {depth : Nat}

theorem runDownTo_of_more (h : t.turn none = .more t') (hdepth : depth < t'.calls.depth) :
    t.runDownTo depth = t'.runDownTo depth := by
  rw [runDownTo, h]
  exact if_neg (by omega)

theorem runDownTo_of_end (h : t.turn none = .more t') (hdepth : t'.calls.depth ≤ depth) :
    t.runDownTo depth = (.ok (), t') := by
  rw [runDownTo, h]
  exact if_pos hdepth

theorem runDownTo_of_stop {outcome : Except Fault Unit} (h : t.turn none = .stop outcome t') :
    t.runDownTo depth = (outcome, t') := by
  rw [runDownTo, h]

end Thread

namespace SplitThread

variable {m : SplitThread} {a : Activation} {capacity callCapacity : Nat}

/-- A call has the same room within `m` as on a fresh machine with the capacity
that `m` has left. -/
theorem roomFor_eq (hcap : m.dataCapacity = capacity + m.values.length) (count : Nat) :
    (m.after count).roomFor m.activations a =
      (((new capacity callCapacity).after count).roomFor [] a).mapError (Trap.resized m.dataCapacity) := by
  have hm : (a.values ++ (m.after count).below m.activations).length = a.values.length + m.values.length :=
    List.length_append
  have hnew : (a.values ++ ((new capacity callCapacity).after count).below []).length = a.values.length :=
    congrArg List.length (List.append_nil _)
  by_cases hroom : a.values.length < capacity
  · have hlt : (a.values ++ (m.after count).below m.activations).length < m.dataCapacity := by
      rw [hm]
      omega
    have hlt' : (a.values ++ ((new capacity callCapacity).after count).below []).length < capacity := by
      rw [hnew]
      exact hroom
    rw [roomFor_of_lt hlt, roomFor_of_lt hlt']
    rfl
  · have hle : (m.after count).dataCapacity ≤ (a.values ++ (m.after count).below m.activations).length := by
      rw [hm]
      show m.dataCapacity ≤ _
      omega
    have hle' : ((new capacity callCapacity).after count).dataCapacity ≤
        (a.values ++ ((new capacity callCapacity).after count).below []).length := by
      rw [hnew]
      exact Nat.le_of_not_lt hroom
    rw [roomFor_of_le hle, roomFor_of_le hle']
    rfl

theorem length_le_of_laidOut {m : SplitThread} {rest : List Activation} (h : (m.within rest a).LaidOut) :
    (a.values ++ m.below rest).length ≤ m.dataCapacity := by
  have hle := h.depth_le
  simp only [within_eq, Stack.depth_ofTopFirst, Stack.capacity_ofTopFirst] at hle
  rwa [Activation.values, List.append_assoc]

/-- After the end of a call, the machine is as it was, with the operands of the
call on top. -/
theorem flatten_leave (m : SplitThread) (a : Activation) (count : Nat) :
    ((m.after count).leave a m.activations).flatten =
      { m.flatten with
        data := .ofTopFirst (a.operands ++ m.values) m.dataCapacity
        current := if m.activations.isEmpty then a.pointer else m.current
        executed := m.executed + count } := by
  rw [leave, flatten_give]
  obtain ⟨_ | ⟨b, rest⟩, host, idle, executed, dataCapacity, callCapacity⟩ := m
  · rfl
  · rfl

/-- The end of a call, within `m` and on a fresh machine. -/
theorem endsAlike_leave (m : SplitThread) (a : Activation) (count : Nat) :
    m.flatten.EndsAlike (.ok (), ((m.after count).leave a m.activations).flatten)
      (.ok (), (((new capacity callCapacity).after count).leave a []).flatten) := by
  have hnew : (((new capacity callCapacity).after count).leave a []).flatten = _ :=
    flatten_leave (new capacity callCapacity) a count
  rw [flatten_leave m a count, hnew]
  refine .returned ?_ ?_ rfl ?_
  · show m.executed + count = m.executed + (0 + count)
    omega
  · show (Stack.ofTopFirst (a.operands ++ m.values) _).items =
      (Stack.ofTopFirst m.values _).items ++ (Stack.ofTopFirst (a.operands ++ []) _).items
    simp [Stack.ofTopFirst]
  · intro hdepth
    rw [depth_calls_flatten] at hdepth
    exact if_neg (by simpa using List.ne_nil_of_length_pos hdepth)

/-- An instruction that traps, within `m` and on a fresh machine. -/
theorem endsAlike_of_trap {count : Nat} {trap : Trap} {t₁ t₂ : Thread}
    (hm : ((m.after count).within m.activations a).LaidOut)
    (hnew : (((new capacity callCapacity).after count).within [] a).LaidOut)
    (ht₁ : ((m.after count).within m.activations a).turn none =
      .stop (.error (a.pointer.fault (trap.resized m.dataCapacity))) t₁)
    (ht₂ : (((new capacity callCapacity).after count).within [] a).turn none =
      .stop (.error (a.pointer.fault trap)) t₂) :
    m.flatten.EndsAlike (.error (a.pointer.fault (trap.resized m.dataCapacity)), t₁)
      (.error (a.pointer.fault trap), t₂) := by
  have hcount := hm.executed_turn none
  have hcount' := hnew.executed_turn none
  -- the pointer alone decides whether an instruction is fetched, and so counted
  have hfetch : ((m.after count).within m.activations a).fetch none =
      (((new capacity callCapacity).after count).within [] a).fetch none := rfl
  rw [ht₁, hfetch] at hcount
  rw [ht₂] at hcount'
  generalize ((((new capacity callCapacity).after count).within [] a).fetch none).toOption.toList.length =
    fetched at hcount hcount'
  replace hcount : t₁.executed = m.executed + count + fetched := hcount
  replace hcount' : t₂.executed = 0 + count + fetched := hcount'
  refine @Thread.EndsAlike.faulted m.flatten t₁ t₂ (a.pointer.fault trap) ?_
  show t₁.executed = m.executed + t₂.executed
  omega

/-- The end of its body brings a call down to those that `m` has under way. -/
theorem runDownTo_of_end {count : Nat} (h : ((m.after count).within m.activations a).turn none =
      if m.activations.isEmpty then .stop (.ok ()) ((m.after (count + 1)).leave a m.activations).flatten
      else .more ((m.after (count + 1)).leave a m.activations).flatten) :
    ((m.after count).within m.activations a).runDownTo m.activations.length =
      (.ok (), ((m.after (count + 1)).leave a m.activations).flatten) := by
  by_cases hempty : m.activations.isEmpty
  · rw [if_pos hempty] at h
    exact Thread.runDownTo_of_stop h
  · rw [if_neg hempty] at h
    refine Thread.runDownTo_of_end h (Nat.le_of_eq ?_)
    rw [flatten_leave]
    exact depth_calls_flatten m

/-- A call that is innermost in `m` comes to the same end as on a fresh
machine. The induction is on what the fresh machine has left to execute. -/
theorem endsAlike_within (hcap : m.dataCapacity = capacity + m.values.length) {count : Nat}
    (hm : ((m.after count).within m.activations a).LaidOut)
    (hnew : (((new capacity callCapacity).after count).within [] a).LaidOut) :
    m.flatten.EndsAlike (((m.after count).within m.activations a).runDownTo m.activations.length)
      ((((new capacity callCapacity).after count).within [] a).run none) := by
  induction hleft : (((new capacity callCapacity).after count).within [] a).left
    using Nat.strongRecOn generalizing a count with
  | _ left ih =>
  have hturn := turn_within (length_le_of_laidOut hm)
  have hturn' := turn_within (length_le_of_laidOut hnew)
  rw [roomFor_eq hcap count, Activation.next_mapError] at hturn
  rcases hnext : a.next (((new capacity callCapacity).after count).roomFor [] a) with trap | _ | a'
  · rw [hnext] at hturn hturn'
    obtain ⟨t₁, ht₁⟩ := hturn
    obtain ⟨t₂, ht₂⟩ := hturn'
    rw [Thread.runDownTo_of_stop ht₁, Thread.run_of_stop ht₂]
    exact endsAlike_of_trap hm hnew ht₁ ht₂
  · rw [hnext] at hturn hturn'
    have ht₂ : (((new capacity callCapacity).after count).within [] a).turn none =
        .stop (.ok ()) (((new capacity callCapacity).after (count + 1)).leave a []).flatten := hturn'
    rw [runDownTo_of_end hturn, Thread.run_of_stop ht₂]
    exact endsAlike_leave m a (count + 1)
  · rw [hnext] at hturn hturn'
    have ht₁ : ((m.after count).within m.activations a).turn none =
        .more ((m.after (count + 1)).within m.activations a') := hturn
    have ht₂ : (((new capacity callCapacity).after count).within [] a).turn none =
        .more (((new capacity callCapacity).after (count + 1)).within [] a') := hturn'
    have hkeeps := hm.keeps_turn none
    have hkeeps' := hnew.keeps_turn none
    have hlt := Thread.left_turn ht₂
    rw [ht₁] at hkeeps
    rw [ht₂] at hkeeps'
    rw [Thread.runDownTo_of_more ht₁ (by simp [within_eq, length_frames]), Thread.run_of_more ht₂]
    exact ih _ (hleft ▸ hlt) hkeeps.laidOut hkeeps'.laidOut rfl

end SplitThread

/-- A call on a thread that a host has brought about, with a frame left, and
the same call on a fresh thread that has the room left on the other: both
succeed or neither does, and both come to the same end. -/
theorem Thread.call_eq_fresh_call {dataCapacity callCapacity freshCallCapacity : Nat}
    {requests : List Request} {t : Thread} (ht : requests.foldl serve (new dataCapacity callCapacity) = t)
    (hcalls : t.calls.depth < callCapacity) (hfresh : 1 ≤ freshCallCapacity)
    (functionIndex : UInt32) (f : Function) (arguments : List Value) :
    let fresh := new (dataCapacity - t.data.depth) freshCallCapacity
    ((∃ t₁, Exec.enter functionIndex f arguments t = .ok () t₁) ↔
      ∃ t₂, Exec.enter functionIndex f arguments fresh = .ok () t₂) ∧
    ∀ t₁ t₂, Exec.enter functionIndex f arguments t = .ok () t₁ →
      Exec.enter functionIndex f arguments fresh = .ok () t₂ →
      t.EndsAlike (t₁.runDownTo t.calls.depth) (t₂.run none) := by
  have hkeeps := (laidOut_new dataCapacity callCapacity).keeps_requests requests
  rw [ht] at hkeeps
  obtain ⟨m, rfl⟩ := hkeeps.laidOut.exists_flatten
  have hdata : m.dataCapacity = dataCapacity := hkeeps.dataCapacity_eq
  have hcall : m.callCapacity = callCapacity := hkeeps.callCapacity_eq
  have hdepth : m.flatten.data.depth = m.values.length := Stack.depth_ofTopFirst _ _
  have hle : m.flatten.data.depth ≤ m.dataCapacity := hkeeps.laidOut.depth_le
  rw [SplitThread.depth_calls_flatten] at hcalls ⊢
  rw [hdepth, ← hdata] at *
  have hentered := SplitThread.enter_flatten_eq_ok_iff (hcall ▸ hcalls) functionIndex f arguments
  have hnew := @SplitThread.enter_flatten_eq_ok_iff
    (.new (m.dataCapacity - m.values.length) freshCallCapacity) hfresh functionIndex f arguments
  refine ⟨?_, fun t₁ t₂ ht₁ ht₂ => ?_⟩
  · constructor
    · rintro ⟨t₁, ht₁⟩
      exact ⟨_, (hnew _).2 ⟨((hentered t₁).1 ht₁).1, rfl⟩⟩
    · rintro ⟨t₂, ht₂⟩
      exact ⟨_, (hentered _).2 ⟨((hnew t₂).1 ht₂).1, rfl⟩⟩
  · have hm := (hkeeps.laidOut.keeps_enter functionIndex f arguments).laidOut
    have hfresh := ((laidOut_new (m.dataCapacity - m.values.length) freshCallCapacity).keeps_enter
      functionIndex f arguments).laidOut
    rw [stateAfter_of_ok ht₁, ((hentered t₁).1 ht₁).2] at hm
    rw [stateAfter_of_ok ht₂, ((hnew t₂).1 ht₂).2] at hfresh
    rw [((hentered t₁).1 ht₁).2, ((hnew t₂).1 ht₂).2]
    exact @SplitThread.endsAlike_within m _ _ freshCallCapacity (Nat.sub_add_cancel hle).symm 0 hm hfresh

/-- A call within a call that stands after two instructions and above values
which a failed call left: it takes its argument from its own locals, leaves its
result above all values that were there, and the caller goes on where it
stood. -/
theorem Thread.call_eq_fresh_call_nested :
    let main : Function := ⟨[.i64], [0x41, 0x03, 0x20, 0x00, 0x6a, 0x0b]⟩
    let negated : Function := ⟨[], [0x20, 0x00, 0x41, 0x7f, 0x6c, 0x0b]⟩
    let requests : List Request := [.enter 0 main [.i32 5], .run (some 2),
      .enter 1 main [.i32 6, .i32 7, .i32 8, .i32 9, .i32 10], .exec .drop, .exec .drop, .exec .drop]
    ∃ t t₁ t₂, requests.foldl serve (new 8 2) = t ∧
      t.data.items = #[.i32 5, .i64 0, .i32 3, .i32 5, .i32 6] ∧ t.calls.depth = 1 ∧
      Exec.enter 1 negated [.i32 7] t = .ok () t₁ ∧
      Exec.enter 1 negated [.i32 7] (new 3 1) = .ok () t₂ ∧
      (t₁.runDownTo 1).2.data.items = #[.i32 5, .i64 0, .i32 3, .i32 5, .i32 6, .i32 (-7)] ∧
      (t₂.run none).2.data.items = #[.i32 (-7)] ∧
      t.EndsAlike (t₁.runDownTo 1) (t₂.run none) := by
  intro main negated requests
  have hdepth : (requests.foldl serve (new 8 2)).calls.depth = 1 := by decide +kernel
  have hdata : (requests.foldl serve (new 8 2)).data.depth = 5 := by decide +kernel
  obtain ⟨hiff, hends⟩ := @call_eq_fresh_call 8 2 1 requests _ rfl (by rw [hdepth]; decide) (by decide) 1
    negated [.i32 7]
  rw [hdata] at hiff hends
  rw [hdepth] at hends
  obtain ⟨t₁, ht₁⟩ := hiff.2 ⟨_, rfl⟩
  refine ⟨_, t₁, _, rfl, by decide +kernel, hdepth, ht₁, rfl, ?_, by decide +kernel, hends t₁ _ ht₁ rfl⟩
  rw [← stateAfter_of_ok ht₁]
  decide +kernel

end StackVm
