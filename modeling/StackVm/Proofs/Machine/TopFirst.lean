import StackVm.Machine.Stack

/-!
# Stacks from the top

What the operations on a stack do to the list of its items, the one at the
top first. Every stack is `Stack.ofTopFirst` of that list
(`Stack.ofTopFirst_toListTopFirst`), so these lemmas cover all stacks:

* `Stack.push_ofTopFirst`, `Stack.pushAll_ofTopFirst`: new items come first;
* `Stack.pop_ofTopFirst_cons`, `Stack.peek_ofTopFirst_eq`, `Stack.poke_ofTopFirst_eq`:
  a position is the number of items above it;
* `Stack.discard_ofTopFirst_eq`: a range counted from the bottom is cut out.

Of the last three there are forms for a position and a range that are known to be there
(`Stack.peek_ofTopFirst`, `Stack.poke_ofTopFirst`, `Stack.discard_ofTopFirst`).
-/

namespace StackVm

namespace Stack

variable {α : Type}

/-- The stack of a list of items, the one at the top first. -/
def ofTopFirst (items : List α) (capacity : Nat) : Stack α :=
  { items := items.reverse.toArray, capacity }

theorem ofTopFirst_toListTopFirst (s : Stack α) : ofTopFirst s.toListTopFirst s.capacity = s := by
  simp [ofTopFirst, toListTopFirst]

theorem exists_ofTopFirst (s : Stack α) : ∃ items capacity, s = ofTopFirst items capacity :=
  ⟨_, _, (ofTopFirst_toListTopFirst s).symm⟩

@[simp] theorem toListTopFirst_ofTopFirst (items : List α) (capacity : Nat) :
    (ofTopFirst items capacity).toListTopFirst = items := by
  simp [ofTopFirst, toListTopFirst]

theorem ofTopFirst_cons_toListTopFirst (a : α) (s : Stack α) :
    ofTopFirst (a :: s.toListTopFirst) s.capacity = { s with items := s.items.push a } := by
  rw [ofTopFirst, toListTopFirst, List.reverse_cons, List.reverse_reverse, ← Array.toList_push,
    Array.toArray_toList]

theorem head?_toListTopFirst (s : Stack α) : s.toListTopFirst.head? = s.items.back? := by
  simp [toListTopFirst, List.head?_reverse]

@[simp] theorem length_toListTopFirst (s : Stack α) : s.toListTopFirst.length = s.depth := by
  simp [toListTopFirst, depth]

@[simp] theorem depth_ofTopFirst (items : List α) (capacity : Nat) :
    (ofTopFirst items capacity).depth = items.length := by
  simp [ofTopFirst, depth]

@[simp] theorem capacity_ofTopFirst (items : List α) (capacity : Nat) :
    (ofTopFirst items capacity).capacity = capacity := rfl

@[simp] theorem isEmpty_ofTopFirst (items : List α) (capacity : Nat) :
    (ofTopFirst items capacity).isEmpty = items.isEmpty := by
  simp [ofTopFirst, isEmpty]

theorem push_ofTopFirst (a : α) (items : List α) (capacity : Nat) :
    push a (ofTopFirst items capacity) =
      if items.length < capacity then .ok () (ofTopFirst (a :: items) capacity)
      else .error (.stackOverflow capacity) (ofTopFirst items capacity) := by
  simp [push, ofTopFirst]

theorem pushAll_append (first second : List α) :
    pushAll (first ++ second) = (pushAll first >>= fun _ => pushAll second) := by
  induction first with
  | nil => rfl
  | cons a first ih => rw [List.cons_append, pushAll, pushAll, ih, bind_assoc]

/-- Items go on top in order, as many as there is room for. -/
theorem pushAll_ofTopFirst (new items : List α) (capacity : Nat) :
    pushAll new (ofTopFirst items capacity) =
      if new.length ≤ capacity - items.length then .ok () (ofTopFirst (new.reverse ++ items) capacity)
      else .error (.stackOverflow capacity)
        (ofTopFirst ((new.take (capacity - items.length)).reverse ++ items) capacity) := by
  induction new generalizing items with
  | nil => simp [pushAll, pure, EStateM.pure]
  | cons a new ih =>
    simp only [pushAll, bind, EStateM.bind, push_ofTopFirst]
    by_cases hroom : items.length < capacity
    · have hless : capacity - items.length = capacity - (items.length + 1) + 1 := by omega
      simp [hroom, ih, hless]
    · have hnone : capacity - items.length = 0 := by omega
      simp [hroom, hnone]

theorem pop_ofTopFirst_cons (a : α) (items : List α) (capacity : Nat) :
    pop (ofTopFirst (a :: items) capacity) = .ok a (ofTopFirst items capacity) := by
  simp [pop, ofTopFirst]

theorem peek_ofTopFirst_eq (k : Nat) (items : List α) (capacity : Nat) : peek k (ofTopFirst items capacity) =
    match items[k]? with
    | some a => .ok a (ofTopFirst items capacity)
    | none => .error .stackUnderflow (ofTopFirst items capacity) := by
  by_cases hk : k < items.length
  · have hplace : items.length - 1 - (items.length - 1 - k) = k := by omega
    simp [peek, ofTopFirst, hk, hplace]
  · simp [peek, ofTopFirst, hk]

theorem peek_ofTopFirst (above : List α) (a : α) (below : List α) (capacity : Nat) :
    peek above.length (ofTopFirst (above ++ a :: below) capacity) =
      .ok a (ofTopFirst (above ++ a :: below) capacity) := by
  simp [peek_ofTopFirst_eq]

theorem poke_ofTopFirst (above : List α) (a b : α) (below : List α) (capacity : Nat) :
    poke above.length b (ofTopFirst (above ++ a :: below) capacity) =
      .ok () (ofTopFirst (above ++ b :: below) capacity) := by
  have hlt : above.length < (ofTopFirst (above ++ a :: below) capacity).items.size := by
    simp only [ofTopFirst, List.size_toArray, List.length_reverse, List.length_append, List.length_cons]
    omega
  rw [poke, if_pos hlt]
  simp [ofTopFirst]

theorem poke_ofTopFirst_eq (k : Nat) (a : α) (items : List α) (capacity : Nat) :
    poke k a (ofTopFirst items capacity) =
      if k < items.length then .ok () (ofTopFirst (items.set k a) capacity)
      else .error .stackUnderflow (ofTopFirst items capacity) := by
  by_cases hk : k < items.length
  · obtain ⟨above, below, hitems, rfl, hset⟩ := @List.exists_of_set _ _ a _ hk
    have hpoke := poke_ofTopFirst above items[above.length] a below capacity
    rw [← hitems] at hpoke
    rw [if_pos hk, hset, hpoke]
  · rw [if_neg hk, poke, if_neg (by simpa [ofTopFirst] using hk)]

theorem discard_ofTopFirst_eq (start stop : Nat) (items : List α) (capacity : Nat) :
    discard start stop (ofTopFirst items capacity) =
      if start ≤ stop ∧ stop ≤ items.length then
        .ok () (ofTopFirst (items.take (items.length - stop) ++ items.drop (items.length - start)) capacity)
      else .error .stackUnderflow (ofTopFirst items capacity) := by
  simp [discard, ofTopFirst, List.take_reverse, List.drop_reverse]

/-- What stands between `above` and `below` is cut out. -/
theorem discard_ofTopFirst (above middle below : List α) (capacity : Nat) :
    discard below.length (middle.length + below.length) (ofTopFirst (above ++ middle ++ below) capacity) =
      .ok () (ofTopFirst (above ++ below) capacity) := by
  have hlength : (above ++ middle ++ below).length = above.length + middle.length + below.length := by
    rw [List.length_append, List.length_append]
  have habove : (above ++ middle ++ below).take (above.length + middle.length + below.length -
      (middle.length + below.length)) = above := by
    rw [List.append_assoc]
    exact List.take_left' (by omega)
  have hbelow : (above ++ middle ++ below).drop (above.length + middle.length + below.length - below.length) =
      below :=
    List.drop_left' (by rw [List.length_append]; omega)
  rw [discard_ofTopFirst_eq, hlength, if_pos (by omega), habove, hbelow]

end Stack

end StackVm
