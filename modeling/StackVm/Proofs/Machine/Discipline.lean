import StackVm.Proofs.Machine.Layout

/-!
# The discipline of stacks

What holds of a stack after any operations, those that trapped among them
(`Stack.disciplined_of_operations`). Positions count down from the top and ranges count up
from the bottom. On the list of the items, the one at the top first, both become take, drop
and set, and what can be seen of a stack is that list (`Stack.peeked_ofTopFirst`).

* `Stack.peeked_of_poke`, `Stack.peeked_of_discard`: what is seen after an item is replaced
  and after a range is removed;
* `Stack.popAll_of_pushAll`, `Stack.drain_of_pushAll`: what was pushed comes back in reverse;
* `Stack.Operation.ok_or_error`, `Stack.depth_serve_le`: what one operation can do, and that
  it keeps to the capacity, which carries over to any number of them.
-/

namespace StackVm

namespace Stack

variable {α : Type}

/-! ## Operations -/

/-- What a stack can be asked for. -/
inductive Operation (α : Type)
  | push (a : α)
  | pop
  | peek (k : Nat)
  | poke (k : Nat) (a : α)
  | discard (start stop : Nat)
  | drain

namespace Operation

/-- What an operation gives. -/
abbrev Answer : Operation α → Type
  | push _ | poke _ _ | discard _ _ => Unit
  | pop | peek _ => α
  | drain => List α

/-- How an operation acts. -/
def action : (op : Operation α) → Action α op.Answer
  | push a => Stack.push a
  | pop => Stack.pop
  | peek k => Stack.peek k
  | poke k a => Stack.poke k a
  | discard start stop => Stack.discard start stop
  | drain => Stack.drain

/-- There is room for what the operation adds, or there is what it asks for. -/
def Fits (s : Stack α) : Operation α → Prop
  | push _ => s.depth < s.capacity
  | pop => 0 < s.depth
  | peek k | poke k _ => k < s.depth
  | discard start stop => start ≤ stop ∧ stop ≤ s.depth
  | drain => True

end Operation

/-- The stack after an operation, whether it succeeds or traps. -/
def serve (s : Stack α) (op : Operation α) : Stack α :=
  stateAfter op.action s

/-- What `peek` returns, or the trap. -/
def peeked (s : Stack α) (k : Nat) : Except Trap α :=
  match peek k s with
  | .ok a _ => .ok a
  | .error e _ => .error e

/-- Takes `n` items from the top, one after another. -/
def popAll : Nat → Action α (List α)
  | 0 => pure []
  | n + 1 => do
    let a ← pop
    return a :: (← popAll n)

/-! ## On the list of items -/

theorem popAll_ofTopFirst (taken items : List α) (capacity : Nat) :
    popAll taken.length (ofTopFirst (taken ++ items) capacity) = .ok taken (ofTopFirst items capacity) := by
  induction taken with
  | nil => rfl
  | cons a taken ih =>
    simp only [List.length_cons, popAll, List.cons_append, bind, EStateM.bind, pop_ofTopFirst_cons, ih]
    rfl

theorem peeked_ofTopFirst (items : List α) (capacity k : Nat) :
    (ofTopFirst items capacity).peeked k = items[k]?.elim (.error .stackUnderflow) .ok := by
  rw [peeked, peek_ofTopFirst_eq]
  cases items[k]? <;> rfl

variable {s s' : Stack α}

/-! ## What can be seen of a stack -/

/-- Replacing an item changes what is seen at its position, and nothing else. -/
theorem peeked_of_poke {k : Nat} {a : α} (h : poke k a s = .ok () s') :
    s'.depth = s.depth ∧ ∀ j, s'.peeked j = if j = k then .ok a else s.peeked j := by
  obtain ⟨items, capacity, rfl⟩ := exists_ofTopFirst s
  rw [poke_ofTopFirst_eq] at h
  split at h
  · next hk =>
    cases h
    refine ⟨by simp, fun j => ?_⟩
    rw [peeked_ofTopFirst, peeked_ofTopFirst, List.getElem?_set]
    by_cases hj : j = k
    · rw [if_pos hj.symm, if_pos (hj ▸ hk), if_pos hj, Option.elim_some]
    · rw [if_neg (Ne.symm hj), if_neg hj]
  · cases h

/-- What stood above a range that is removed is seen as before, and what stood below it is
seen so much nearer to the top. -/
theorem peeked_of_discard {start stop : Nat} (h : discard start stop s = .ok () s') (k : Nat) :
    s'.peeked k =
      if k < s.depth - stop then s.peeked k
      else if k < s.depth - (stop - start) then s.peeked (k + (stop - start))
      else .error .stackUnderflow := by
  obtain ⟨items, capacity, rfl⟩ := exists_ofTopFirst s
  rw [discard_ofTopFirst_eq] at h
  split at h
  · next hrange =>
    cases h
    obtain ⟨hle, hdepth⟩ := hrange
    have hlength : (items.take (items.length - stop)).length = items.length - stop := by simp
    rw [peeked_ofTopFirst, peeked_ofTopFirst, peeked_ofTopFirst, depth_ofTopFirst]
    by_cases habove : k < items.length - stop
    · rw [if_pos habove, List.getElem?_append_left (by rwa [hlength]), List.getElem?_take_of_lt habove]
    · have hplace : items.length - start + (k - (items.length - stop)) = k + (stop - start) := by omega
      rw [if_neg habove, List.getElem?_append_right (by omega), hlength, List.getElem?_drop, hplace]
      by_cases hbelow : k < items.length - (stop - start)
      · rw [if_pos hbelow]
      · rw [if_neg hbelow, List.getElem?_eq_none (by omega), Option.elim_none]
  · cases h

/-! ## What comes back -/

theorem eq_ofTopFirst_of_pushAll {values : List α} (h : pushAll values s = .ok () s') :
    s' = ofTopFirst (values.reverse ++ s.toListTopFirst) s.capacity := by
  obtain ⟨items, capacity, rfl⟩ := exists_ofTopFirst s
  rw [pushAll_ofTopFirst] at h
  split at h
  · cases h
    rw [toListTopFirst_ofTopFirst, capacity_ofTopFirst]
  · cases h

theorem popAll_of_pushAll {values : List α} (h : pushAll values s = .ok () s') :
    popAll values.length s' = .ok values.reverse s := by
  rw [eq_ofTopFirst_of_pushAll h, ← List.length_reverse, popAll_ofTopFirst, ofTopFirst_toListTopFirst]

theorem drain_of_pushAll {values : List α} (h : pushAll values s = .ok () s') :
    drain s' = .ok (values.reverse ++ s.toListTopFirst) (empty s.capacity) := by
  rw [eq_ofTopFirst_of_pushAll h, drain, toListTopFirst_ofTopFirst]
  rfl

/-! ## Any operations -/

/-- An operation that fits succeeds, and one that does not leaves the stack as it was. -/
theorem Operation.ok_or_error (op : Operation α) (s : Stack α) :
    op.Fits s ∧ (∃ a s', op.action s = .ok a s') ∨ ¬ op.Fits s ∧ ∃ e, op.action s = .error e s := by
  by_cases hfits : op.Fits s
  · refine .inl ⟨hfits, ?_⟩
    cases op with
    | push a => exact ⟨_, _, if_pos hfits⟩
    | pop =>
      obtain ⟨_ | ⟨a, items⟩, capacity, rfl⟩ := exists_ofTopFirst s
      · exact absurd hfits (Nat.lt_irrefl 0)
      · exact ⟨_, _, pop_ofTopFirst_cons a items capacity⟩
    | peek k => exact ⟨_, _, dif_pos hfits⟩
    | poke k a => exact ⟨_, _, if_pos hfits⟩
    | discard start stop => exact ⟨_, _, if_pos hfits⟩
    | drain => exact ⟨_, _, rfl⟩
  · refine .inr ⟨hfits, ?_⟩
    cases op with
    | push a => exact ⟨_, if_neg hfits⟩
    | pop =>
      obtain ⟨_ | ⟨a, items⟩, capacity, rfl⟩ := exists_ofTopFirst s
      · exact ⟨_, rfl⟩
      · exact absurd (by simp [Fits]) hfits
    | peek k => exact ⟨_, dif_neg hfits⟩
    | poke k a => exact ⟨_, if_neg hfits⟩
    | discard start stop => exact ⟨_, if_neg hfits⟩
    | drain => exact absurd trivial hfits

theorem Operation.exists_ok_iff (op : Operation α) (s : Stack α) :
    (∃ a s', op.action s = .ok a s') ↔ op.Fits s := by
  rcases op.ok_or_error s with ⟨hfits, hok⟩ | ⟨hfits, e, herror⟩
  · exact iff_of_true hok hfits
  · simp [herror, hfits]

theorem Operation.eq_of_error {op : Operation α} {e : Trap} (h : op.action s = .error e s') : s' = s := by
  rcases op.ok_or_error s with ⟨-, a, s₁, hok⟩ | ⟨-, e₁, herror⟩
  · cases hok.symm.trans h
  · cases herror.symm.trans h
    rfl

theorem removes_discard (start stop : Nat) : Removes (stop - start) (discard start stop : Action α Unit) := by
  intro s h
  obtain ⟨items, capacity, rfl⟩ := exists_ofTopFirst s
  by_cases hrange : start ≤ stop ∧ stop ≤ items.length
  · rw [stateAfter_of_ok ((discard_ofTopFirst_eq ..).trans (if_pos hrange))]
    refine ⟨rfl, ?_⟩
    simp only [capacity_ofTopFirst, depth_ofTopFirst, List.length_append, List.length_take, List.length_drop] at h ⊢
    omega
  · rw [stateAfter_of_error ((discard_ofTopFirst_eq ..).trans (if_neg hrange))]
    exact ⟨rfl, h, Nat.le_add_right ..⟩

theorem Removes.within {β : Type} {k : Nat} {action : Action α β} (h : Removes k action)
    (hs : s.depth ≤ s.capacity) :
    (stateAfter action s).capacity = s.capacity ∧ (stateAfter action s).depth ≤ s.capacity :=
  ⟨(h s hs).1, (h s hs).2.1⟩

/-- No operation exceeds the capacity. -/
theorem depth_serve_le (h : s.depth ≤ s.capacity) (op : Operation α) :
    (s.serve op).capacity = s.capacity ∧ (s.serve op).depth ≤ s.capacity := by
  cases op with
  | push a => exact (removes_push a).within h
  | pop => exact removes_pop.within h
  | peek k => exact (removes_peek k).within h
  | poke k a => exact (removes_poke k a).within h
  | discard start stop => exact (removes_discard start stop).within h
  | drain => exact ⟨rfl, Nat.zero_le _⟩

theorem depth_foldl_serve_le (h : s.depth ≤ s.capacity) (ops : List (Operation α)) :
    (ops.foldl serve s).capacity = s.capacity ∧ (ops.foldl serve s).depth ≤ s.capacity := by
  induction ops generalizing s with
  | nil => exact ⟨rfl, h⟩
  | cons op ops ih =>
    obtain ⟨hcapacity, hdepth⟩ := depth_serve_le h op
    rw [← hcapacity] at hdepth ⊢
    exact ih hdepth

/-- The discipline of a stack of the given capacity. It never holds more. An operation
succeeds just if it fits, and leaves the stack as it was if it does not. Replacing an item
and removing a range change what can be seen as they should, and what is pushed comes back
in reverse, with what the stack held before left behind it or taken along. -/
structure Disciplined (capacity : Nat) (s : Stack α) : Prop where
  capacity_eq : s.capacity = capacity
  depth_le : s.depth ≤ capacity
  succeeds_iff : ∀ op : Operation α, (∃ a s', op.action s = .ok a s') ↔ op.Fits s
  unchanged : ∀ (op : Operation α) e s', op.action s = .error e s' → s' = s
  poked : ∀ k a s', poke k a s = .ok () s' →
    s'.depth = s.depth ∧ ∀ j, s'.peeked j = if j = k then .ok a else s.peeked j
  discarded : ∀ start stop s', discard start stop s = .ok () s' → ∀ k, s'.peeked k =
    if k < s.depth - stop then s.peeked k
    else if k < s.depth - (stop - start) then s.peeked (k + (stop - start))
    else .error .stackUnderflow
  popped : ∀ values s', pushAll values s = .ok () s' → popAll values.length s' = .ok values.reverse s
  drained : ∀ values s', pushAll values s = .ok () s' →
    drain s' = .ok (values.reverse ++ s.toListTopFirst) (empty capacity)

/-- Every stack that starts without items, whatever it is asked for, keeps to the
discipline. -/
theorem disciplined_of_operations (capacity : Nat) (ops : List (Operation α)) :
    (ops.foldl serve (empty capacity)).Disciplined capacity := by
  obtain ⟨hcapacity, hdepth⟩ := depth_foldl_serve_le (s := (empty capacity : Stack α)) (Nat.zero_le _) ops
  have hcapacity : (ops.foldl serve (empty capacity)).capacity = capacity := hcapacity
  constructor
  case capacity_eq => exact hcapacity
  case depth_le => exact hdepth
  case succeeds_iff => exact fun op => op.exists_ok_iff _
  case unchanged => exact fun op e s' h => op.eq_of_error h
  case poked => exact fun k a s' h => peeked_of_poke h
  case discarded => exact fun start stop s' h => peeked_of_discard h
  case popped => exact fun values s' h => popAll_of_pushAll h
  case drained =>
    intro values s' h
    rw [drain_of_pushAll h, hcapacity]

end Stack

end StackVm
