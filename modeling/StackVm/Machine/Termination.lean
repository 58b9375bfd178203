import StackVm.Machine.Turn

/-!
# Every run ends

Each turn of the loop uses up something that there is only so much of:

* `Opcode.moves_exec`: an instruction other than the end of a body moves the
  pointer on within the body, and leaves the call stack alone;
* `Exec.left_endBody`: the end of a body uses up a frame;
* `Thread.left_turn`: so a turn lowers `Thread.left`, the bytes left under
  the pointer and under every caller, with one more for each frame.
-/

namespace StackVm

/-- The bytes left under the pointer and under every caller, and one per
frame. -/
def Thread.left (t : Thread) : Nat :=
  t.current.left + CallFrame.leftAll t.calls.items.toList

namespace Exec

/-- An action that, if it succeeds, leaves the call stack as it is, and the
pointer in the same body, `count` bytes further or more. -/
def Moves {β : Type} (count : Nat) (action : Exec β) : Prop :=
  ∀ t b t', action t = .ok b t' →
    t'.calls = t.calls ∧ t'.current.body = t.current.body ∧
      t.current.cursor + count ≤ t'.current.cursor

variable {α β : Type}

theorem exists_of_bind_eq_ok {action : Exec α} {next : α → Exec β} {t t' : Thread} {b : β}
    (h : (action >>= next) t = .ok b t') :
    ∃ a t₁, action t = .ok a t₁ ∧ next a t₁ = .ok b t' := by
  simp only [bind, EStateM.bind] at h
  split at h
  · next a t₁ h₁ => exact ⟨a, t₁, h₁, h⟩
  · cases h

theorem moves_pure (a : α) : Moves 0 (pure a) := by
  intro t b t' h
  cases h
  exact ⟨rfl, rfl, Nat.le_refl _⟩

theorem moves_throw (e : Trap) {count : Nat} : Moves count (throw e : Exec α) := by
  intro t b t' h
  cases h

theorem moves_bind {action : Exec α} {next : α → Exec β} {count : Nat}
    (h₁ : Moves count action) (h₂ : ∀ a, Moves 0 (next a)) : Moves count (action >>= next) := by
  intro t b t' h
  obtain ⟨a, t₁, h', h⟩ := exists_of_bind_eq_ok h
  obtain ⟨hc₁, hb₁, hp₁⟩ := h₁ t a t₁ h'
  obtain ⟨hc₂, hb₂, hp₂⟩ := h₂ a t₁ b t' h
  exact ⟨hc₂.trans hc₁, hb₂.trans hb₁, Nat.le_trans hp₁ hp₂⟩

theorem moves_onData (action : Stack.Action Value β) : Moves 0 (onData action) := by
  intro t b t' h
  simp only [onData] at h
  split at h <;> cases h
  exact ⟨rfl, rfl, Nat.le_refl _⟩

theorem moves_depth : Moves 0 depth := by
  intro t b t' h
  cases h
  exact ⟨rfl, rfl, Nat.le_refl _⟩

theorem moves_frame : Moves 0 frame := by
  intro t b t' h
  simp only [frame, onCalls, Stack.peek] at h
  split at h
  · next h' =>
    split at h' <;> cases h'
    cases h
    exact ⟨rfl, rfl, Nat.le_refl _⟩
  · cases h

theorem moves_advance : Moves 1 advance := by
  intro t b t' h
  cases h
  exact ⟨rfl, rfl, Nat.le_refl _⟩

theorem moves_operand : Moves 0 operand := by
  intro t b t' h
  simp only [operand] at h
  split at h <;> cases h
  exact ⟨rfl, rfl, Nat.le_add_right _ _⟩

theorem moves_unsignedOperand : Moves 0 unsignedOperand :=
  moves_bind moves_operand fun _ => moves_pure _

theorem moves_signedOperand : Moves 0 signedOperand :=
  moves_bind moves_operand fun _ => moves_pure _

theorem moves_localIndex (index : UInt32) : Moves 0 (localIndex index) := by
  refine moves_bind moves_frame fun f => ?_
  split
  · exact moves_throw _
  · refine moves_bind moves_depth fun d => ?_
    split
    · exact moves_pure _
    · exact moves_throw _

theorem moves_requireOperands (count : Nat) : Moves 0 (requireOperands count) := by
  refine moves_bind moves_frame fun f => moves_bind moves_depth fun d => ?_
  split
  · exact moves_throw _
  · exact moves_pure _

theorem moves_binary (op : Int32 → Int32 → Int32) : Moves 1 (binary op) :=
  moves_bind moves_advance fun _ =>
    moves_bind (moves_requireOperands 2) fun _ =>
      moves_bind (moves_onData _) fun _ =>
        moves_bind (moves_onData _) fun _ =>
          moves_bind (moves_onData _) fun _ => moves_pure _

end Exec

open Exec in
/-- Every instruction but the end of a body moves the pointer on by a byte or
more, within the body. -/
theorem Opcode.moves_exec {op : Opcode} (h : op ≠ .endBody) : Moves 1 op.exec := by
  cases op with
  | unreachable => exact moves_throw _
  | nop => exact moves_bind moves_advance fun _ => moves_pure _
  | endBody => exact absurd rfl h
  | drop =>
    exact moves_bind moves_advance fun _ =>
      moves_bind (moves_requireOperands 1) fun _ =>
        moves_bind (moves_onData _) fun _ => moves_pure _
  | localGet =>
    exact moves_bind moves_advance fun _ =>
      moves_bind moves_unsignedOperand fun x =>
        moves_bind (moves_localIndex x) fun _ =>
          moves_bind (moves_onData _) fun _ =>
            moves_bind (moves_onData _) fun _ => moves_pure _
  | localSet =>
    exact moves_bind moves_advance fun _ =>
      moves_bind moves_unsignedOperand fun x =>
        moves_bind (moves_requireOperands 1) fun _ =>
          moves_bind (moves_onData _) fun _ =>
            moves_bind (moves_localIndex x) fun _ =>
              moves_bind (moves_onData _) fun _ => moves_pure _
  | localTee =>
    exact moves_bind moves_advance fun _ =>
      moves_bind moves_unsignedOperand fun x =>
        moves_bind (moves_requireOperands 1) fun _ =>
          moves_bind (moves_onData _) fun _ =>
            moves_bind (moves_localIndex x) fun _ =>
              moves_bind (moves_onData _) fun _ => moves_pure _
  | i32Const =>
    exact moves_bind moves_advance fun _ =>
      moves_bind moves_signedOperand fun _ =>
        moves_bind (moves_onData _) fun _ => moves_pure _
  | i32Add => exact moves_binary _
  | i32Sub => exact moves_binary _
  | i32Mul => exact moves_binary _

namespace Exec

theorem moves_dropLocals (f : CallFrame) : Moves 0 (dropLocals f) := by
  simp only [dropLocals]
  split
  · exact moves_onData _
  · exact moves_pure _

/-- Leaving a frame uses it up. -/
theorem left_resume {f : CallFrame} {t t' : Thread} (h : resume f t = .ok () t') :
    t'.left < t.left + f.left := by
  match hc : f.caller with
  | none =>
    simp only [resume, hc] at h
    cases h
    simp [CallFrame.left, hc]
  | some caller =>
    simp only [resume, hc] at h
    cases h
    simp only [Thread.left, CallFrame.left, hc]
    omega

/-- The end of a body uses up a frame. -/
theorem left_endBody {t t' : Thread} {p : Progress} (h : endBody t = .ok p t') :
    t'.left < t.left := by
  obtain ⟨f, t₁, h₁, h⟩ := exists_of_bind_eq_ok h
  obtain ⟨_, t₂, h₂, h⟩ := exists_of_bind_eq_ok h
  obtain ⟨_, t₃, h₃, h⟩ := exists_of_bind_eq_ok h
  cases h
  have hpop : t.left = t₁.left + f.left := by
    simp only [onCalls, Stack.pop] at h₁
    match hf : t.calls.items.back? with
    | none => simp only [hf] at h₁; cases h₁
    | some f' =>
      obtain ⟨below, hbelow⟩ := Array.back?_eq_some_iff.1 hf
      simp only [hf] at h₁
      cases h₁
      simp [Thread.left, hbelow, Nat.add_assoc]
  obtain ⟨hc, hb, hp⟩ := moves_dropLocals f _ _ _ h₂
  have hle : t₂.left ≤ t₁.left := by
    simp only [Thread.left, Pointer.left, hc, hb]
    omega
  have := left_resume h₃
  omega

end Exec

namespace Thread

/-- An instruction is fetched from within the body. -/
theorem cursor_lt_of_fetch {budget : Option Nat} {t : Thread} {op : Opcode}
    (h : t.fetch budget = .ok op) : t.current.cursor < t.current.body.length := by
  simp only [fetch] at h
  split at h
  · cases h
  · split at h
    · cases h
    · next b hb => exact Pointer.cursor_lt_of_current? hb

/-- A turn after which the loop goes on uses up bytes, or a frame. -/
theorem left_turn {budget : Option Nat} {t t' : Thread} (h : t.turn budget = .more t') :
    t'.left < t.left := by
  simp only [turn] at h
  split at h
  · cases h
  · next op hop =>
    have hlt := cursor_lt_of_fetch hop
    simp only [dispatch] at h
    have key : ∀ p t₁, op.exec { t with executed := t.executed + 1 } = .ok p t₁ →
        t₁.left < t.left := by
      intro p t₁ h₁
      by_cases he : op = .endBody
      · subst he
        have := Exec.left_endBody h₁
        exact this
      · obtain ⟨hc, hb, hp⟩ := Opcode.moves_exec he _ _ _ h₁
        simp only [left, Pointer.left, hc, hb]
        simp only at hp
        omega
    split at h
    · next h₁ =>
      cases h
      exact key _ _ h₁
    · next h₁ =>
      split at h <;> cases h
      exact key _ _ h₁
    · cases h

end Thread

end StackVm
