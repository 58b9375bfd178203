import StackVm.Binary.Stream
import StackVm.Proofs.Binary.Reads

/-!
# Reading elsewhere and reading more

Two laws that readers owe to asking for nothing but the bytes that they take:

* `Read.Moves`: some bytes further on, a reader does the same, and all places
  that it reports are so many bytes further on;
* `Read.Stable`: if more bytes follow, results and failures stay as they were,
  unless the failure is that the bytes end where they end.

Both compose, and `Read.moves_frame?` and `Read.outlasts_frame?` are what they
come to for frames.
-/

namespace StackVm

theorem DecodeError.rebase_rebase (e : DecodeError) (first second : Nat) :
    (e.rebase first).rebase second = e.rebase (first + second) := by
  cases e <;> simp [rebase, Nat.add_assoc]

/-- The reader, so many bytes further on. -/
def Reader.moved (count : Nat) (r : Reader) : Reader :=
  { r with pos := r.pos + count }

/-- The range, so many bytes further on. -/
def Span.moved (count : Nat) (s : Span) : Span :=
  ⟨s.start + count, s.stop + count⟩

/-- The section, read so many bytes further on. -/
def Framed.moved (count : Nat) (f : Framed) : Framed :=
  { f with span := f.span.moved count }

namespace Read

variable {α β : Type}

/-! ## Reading elsewhere -/

/-- An outcome, `count` bytes further on; `place` does to a result what this
means for it. -/
def movedOutcome (count : Nat) (place : α → α) :
    EStateM.Result DecodeError Reader α → EStateM.Result DecodeError Reader α
  | .ok a r => .ok (place a) (r.moved count)
  | .error e r => .error (e.rebase count) (r.moved count)

/-- `later` does what `action` does, `count` bytes further on. -/
def Moves (count : Nat) (place : α → α) (action later : Read α) : Prop :=
  ∀ r, later (r.moved count) = movedOutcome count place (action r)

variable {count : Nat}

theorem moves_pure {place : α → α} (a : α) : Moves count place (pure a) (pure (place a)) := fun _ => rfl

theorem Moves.bind {action later : Read α} {place : α → α} {next nextLater : α → Read β} {place' : β → β}
    (h : Moves count place action later) (h' : ∀ a, Moves count place' (next a) (nextLater (place a))) :
    Moves count place' (action >>= next) (later >>= nextLater) := by
  intro r
  simp only [Bind.bind, EStateM.bind, h r]
  cases action r with
  | ok a r' => exact h' a r'
  | error e r' => rfl

theorem moves_position : Moves count (· + count) position position := fun _ => rfl

theorem moves_tryByte : Moves count id tryByte tryByte := by
  rintro ⟨⟨_ | ⟨b, bytes⟩, failure⟩, pos⟩
  · rcases failure with _ | ⟨_ | _, text⟩ <;> rfl
  · simp only [tryByte, Reader.moved, movedOutcome, Nat.add_right_comm, id]

theorem moves_unsigned : Moves count id unsigned unsigned := by
  have hgroups : Moves count id groups groups := by
    rintro ⟨⟨bytes, failure⟩, pos⟩
    simp only [groups, Reader.moved]
    cases Leb128.read bytes with
    | some g => simp [movedOutcome, Reader.moved, Nat.add_right_comm]
    | none =>
      rcases failure with _ | ⟨_ | _, text⟩ <;>
        simp [Reader.exhausted, Reader.ending, movedOutcome, DecodeError.rebase, Reader.moved,
          Nat.add_right_comm]
  exact hgroups.bind fun g => moves_pure g.unsigned

theorem take_of_le {size : Nat} {r : Reader} (h : size ≤ r.bytes.length) : take size r =
    .ok (r.bytes.take size) { r with bytes := r.bytes.drop size, pos := r.pos + size } :=
  if_pos (by rw [List.length_take, Nat.min_eq_left h])

theorem take_of_lt {size : Nat} {r : Reader} (h : r.bytes.length < size) : take size r =
    match r.failure with
    | some f => .error (.readFailed r.pos f.text) r.drained
    | none => .error (.truncated (r.pos + r.bytes.length)) r.exhausted := by
  have htaken : r.bytes.take size = r.bytes := List.take_of_length_le (Nat.le_of_lt h)
  rw [take, htaken]
  exact if_neg (Nat.ne_of_lt h)

theorem moves_take (size : Nat) : Moves count id (take size) (take size) := by
  intro r
  by_cases hlen : size ≤ r.bytes.length
  · rw [take_of_le hlen, take_of_le (r := r.moved count) hlen]
    simp only [Reader.moved, movedOutcome, Nat.add_right_comm, id]
  · rw [take_of_lt (Nat.lt_of_not_le hlen), take_of_lt (r := r.moved count) (Nat.lt_of_not_le hlen)]
    obtain ⟨⟨bytes, failure⟩, pos⟩ := r
    cases failure <;> simp [Reader.moved, movedOutcome, Reader.exhausted, Reader.drained, DecodeError.rebase,
      Nat.add_right_comm]

theorem moves_ofPart (base : Nat) (outcome : Except DecodeError α) :
    Moves count id (ofPart base outcome) (ofPart (base + count) outcome) := by
  intro r
  cases outcome with
  | ok a => rfl
  | error e =>
    show EStateM.Result.error (e.rebase (base + count)) _ = .error ((e.rebase base).rebase count) _
    rw [DecodeError.rebase_rebase]

theorem moves_frameOf (start : Nat) (id : UInt8) :
    Moves count (Framed.moved count) (frameOf start id) (frameOf (start + count) id) :=
  moves_unsigned.bind fun _ => moves_position.bind fun base => (moves_take _).bind fun _ =>
    (moves_ofPart base _).bind fun _ => moves_position.bind fun _ => moves_pure _

theorem moves_frame? : Moves count (Option.map (Framed.moved count)) frame? frame? :=
  moves_position.bind fun start => moves_tryByte.bind fun
    | none => moves_pure none
    | some id => (moves_frameOf start id).bind fun f => moves_pure (some f)

/-! ## Reading more -/

/-- What `action` comes to on some bytes, put by what it came to on `bytes`,
the first of them. -/
def Outlasts (action : Read α) (bytes : List UInt8) (pos : Nat) (more : List UInt8) :
    EStateM.Result DecodeError Reader α → Prop
  | .ok a r => ∃ front rest, bytes = front ++ rest ∧ r = .clean rest (pos + front.length) ∧
      action (.clean (bytes ++ more) pos) = .ok a (.clean (rest ++ more) (pos + front.length))
  | .error e _ => e = .truncated (pos + bytes.length) ∨
      ∃ r, action (.clean (bytes ++ more) pos) = .error e r

/-- Whatever the action comes to, more bytes change nothing about it, unless
they were missing. -/
def Stable (action : Read α) : Prop :=
  ∀ bytes pos more, Outlasts action bytes pos more (action (.clean bytes pos))

theorem stable_pure (a : α) : Stable (pure a) := fun bytes _ _ => ⟨[], bytes, rfl, rfl, rfl⟩

theorem Stable.bind {action : Read α} {next : α → Read β} (h : Stable action) (h' : ∀ a, Stable (next a)) :
    Stable (action >>= next) := by
  intro bytes pos more
  have hfirst := h bytes pos more
  simp only [Bind.bind, EStateM.bind]
  cases haction : action (.clean bytes pos) with
  | error e r =>
    rw [haction] at hfirst
    refine hfirst.imp_right fun ⟨r', hr'⟩ => ⟨r', ?_⟩
    simp only [EStateM.bind, hr']
  | ok a r =>
    rw [haction] at hfirst
    obtain ⟨front, rest, rfl, rfl, haction'⟩ := hfirst
    have hsecond := h' a rest (pos + front.length) more
    simp only
    cases hnext : next a (.clean rest (pos + front.length)) with
    | error e r =>
      rw [hnext] at hsecond
      refine hsecond.imp (fun he => ?_) fun ⟨r', hr'⟩ => ⟨r', ?_⟩
      · rw [he, List.length_append, Nat.add_assoc]
      · simp only [EStateM.bind, haction', hr']
    | ok b r =>
      rw [hnext] at hsecond
      obtain ⟨middle, rest, rfl, rfl, hnext'⟩ := hsecond
      have hpos : pos + front.length + middle.length = pos + (front ++ middle).length := by
        rw [List.length_append, Nat.add_assoc]
      refine ⟨front ++ middle, rest, (List.append_assoc ..).symm, by rw [hpos], ?_⟩
      simp only [EStateM.bind, haction', hnext', hpos]

theorem Stable.position_bind {next : Nat → Read β} (h : ∀ offset, Stable (next offset)) :
    Stable (position >>= next) := fun bytes pos more => h pos bytes pos more

/-- Where an action reads forms, only its failures are in question. -/
theorem Reads.stable {action : Read α} {form : Form α} (h : Reads action form)
    (herror : ∀ bytes pos more e r, action (.clean bytes pos) = .error e r →
      e = .truncated (pos + bytes.length) ∨ ∃ r', action (.clean (bytes ++ more) pos) = .error e r') :
    Stable action := by
  intro bytes pos more
  cases haction : action (.clean bytes pos) with
  | error e r => exact herror bytes pos more e r haction
  | ok a r =>
    obtain ⟨front, rest, rfl, hform, rfl⟩ := (h ..).1 haction
    refine ⟨front, rest, rfl, rfl, (h ..).2 ⟨front, rest ++ more, ?_, hform, rfl⟩⟩
    rw [List.append_assoc]

theorem stable_unsigned : Stable unsigned := by
  refine reads_unsigned.stable fun bytes pos more e r h => .inl ?_
  simp only [unsigned, Bind.bind, EStateM.bind, groups, Reader.clean_bytes] at h
  cases hread : Leb128.read bytes with
  | some g =>
    rw [hread] at h
    cases h
  | none =>
    rw [hread] at h
    cases h
    rfl

theorem stable_take (size : Nat) : Stable (take size) := by
  refine (reads_take size).stable fun bytes pos more e r h => .inl ?_
  by_cases hlen : size ≤ bytes.length
  · rw [take_of_le (by exact hlen)] at h
    cases h
  · rw [take_of_lt (by exact Nat.lt_of_not_le hlen)] at h
    cases h
    rfl

theorem stable_ofPart (base : Nat) (outcome : Except DecodeError α) : Stable (ofPart base outcome) := by
  cases outcome with
  | ok a => exact stable_pure a
  | error e => exact fun bytes pos more => .inr ⟨_, rfl⟩

theorem stable_frameOf (start : Nat) (id : UInt8) : Stable (frameOf start id) :=
  stable_unsigned.bind fun _ => .position_bind fun _ => (stable_take _).bind fun _ =>
    (stable_ofPart _ _).bind fun _ => .position_bind fun _ => stable_pure _

/-- Once it has started, a frame is read alike whatever follows. -/
theorem outlasts_frame? (id : UInt8) (bytes : List UInt8) (pos : Nat) (more : List UInt8) :
    Outlasts frame? (id :: bytes) pos more (frame? (.clean (id :: bytes) pos)) := by
  have hframe : ∀ bytes, frame? (.clean (id :: bytes) pos) =
      (frameOf pos id >>= fun f => pure (some f)) (.clean bytes (pos + 1)) := fun _ => rfl
  have hpos : ∀ bytes : List UInt8, pos + 1 + bytes.length = pos + (id :: bytes).length := by
    intro bytes
    rw [List.length_cons, Nat.add_assoc, Nat.add_comm 1]
  have hstable := (stable_frameOf pos id).bind (fun f => stable_pure (some f)) bytes (pos + 1) more
  rw [hframe]
  generalize (frameOf pos id >>= fun f => pure (some f)) (.clean bytes (pos + 1)) = outcome at hstable
  cases outcome with
  | ok found r =>
    obtain ⟨front, rest, rfl, rfl, hmore⟩ := hstable
    refine ⟨id :: front, rest, rfl, by rw [hpos], ?_⟩
    rw [List.cons_append, hframe, hmore, hpos]
  | error e r =>
    rw [Outlasts, hpos] at hstable
    exact hstable

end Read

end StackVm
