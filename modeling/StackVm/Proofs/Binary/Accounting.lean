import StackVm.Proofs.Binary.Stability

/-!
# What readers count

A reader can be asked for one thing after another, whether or not it could give what it
was asked for before (`Reader.Operation`). All failures, positions and lengths rest on its
count of bytes. That count is right after any operations on a byte string, with one
exception: a word of which there are too few bytes takes them uncounted, and from then on
the count is short (`Reader.accounts_of_operations`).

* `Read.Counts`: the actions that count what they take, whether they succeed or fail
  halfway. Such actions compose, and all operations but one are made of them;
* `Reader.Operation.counted_or_misses`: what one operation can do.
-/

namespace StackVm

namespace Read

variable {α β : Type}

/-! ## Actions that count -/

/-- An outcome of reading `bytes` from `pos` on. What was taken stood at the front and is
counted. If bytes were wanting, all of them were taken, and the failure is placed behind
them. -/
def CountedOutcome (bytes : List UInt8) (pos : Nat) : EStateM.Result DecodeError Reader α → Prop
  | .ok _ r => ∃ taken rest, bytes = taken ++ rest ∧ r = .clean rest (pos + taken.length)
  | .error e r => ∃ taken rest, bytes = taken ++ rest ∧ r = .clean rest (pos + taken.length) ∧
    ∀ offset, e = .truncated offset → rest = [] ∧ offset = pos + taken.length

/-- The action counts what it takes. -/
def Counts (action : Read α) : Prop :=
  ∀ bytes pos, CountedOutcome bytes pos (action (.clean bytes pos))

/-- What was taken before is taken as well. -/
theorem CountedOutcome.behind {front bytes : List UInt8} {pos : Nat} {outcome : EStateM.Result DecodeError Reader α}
    (h : CountedOutcome bytes (pos + front.length) outcome) : CountedOutcome (front ++ bytes) pos outcome := by
  cases outcome with
  | ok a r =>
    obtain ⟨taken, rest, rfl, rfl⟩ := h
    refine ⟨front ++ taken, rest, (List.append_assoc ..).symm, ?_⟩
    rw [List.length_append, Nat.add_assoc]
  | error e r =>
    obtain ⟨taken, rest, rfl, rfl, htruncated⟩ := h
    refine ⟨front ++ taken, rest, (List.append_assoc ..).symm, ?_, ?_⟩
    · rw [List.length_append, Nat.add_assoc]
    · rwa [List.length_append, ← Nat.add_assoc]

theorem counts_pure (a : α) : Counts (pure a) :=
  fun bytes _ => ⟨[], bytes, rfl, rfl⟩

theorem Counts.bind {action : Read α} {next : α → Read β} (h : Counts action) (h' : ∀ a, Counts (next a)) :
    Counts (action >>= next) := by
  intro bytes pos
  have houtcome := h bytes pos
  simp only [Bind.bind, EStateM.bind]
  cases haction : action (.clean bytes pos) with
  | ok a r =>
    rw [haction] at houtcome
    obtain ⟨taken, rest, rfl, rfl⟩ := houtcome
    exact (h' a rest _).behind
  | error e r =>
    rw [haction] at houtcome
    exact houtcome

theorem Counts.ite {c : Prop} {_ : Decidable c} {action other : Read α} (h : Counts action) (h' : Counts other) :
    Counts (if c then action else other) := by
  by_cases hc : c
  · rwa [if_pos hc]
  · rwa [if_neg hc]

/-- An action that fails for anything but the end of the bytes. -/
theorem counts_of_error {action : Read α} (e : DecodeError) (herror : ∀ r, action r = .error e r)
    (he : ∀ offset, e ≠ .truncated offset) : Counts action := by
  intro bytes pos
  rw [herror]
  exact ⟨[], bytes, rfl, rfl, fun offset h => absurd h (he offset)⟩

theorem Counts.ofOption {o : Option α} {fallback : Read α} (h : Counts fallback) : Counts (ofOption o fallback) := by
  cases o with
  | none => exact h
  | some a => exact counts_pure a

theorem counts_position : Counts position :=
  fun bytes _ => ⟨[], bytes, rfl, rfl⟩

theorem counts_byte : Counts byte := by
  intro bytes pos
  cases bytes with
  | nil => exact ⟨[], [], rfl, rfl, fun offset h => ⟨rfl, (DecodeError.truncated.inj h).symm⟩⟩
  | cons b bytes => exact ⟨[b], bytes, rfl, rfl⟩

theorem counts_tryByte : Counts tryByte := by
  intro bytes pos
  cases bytes with
  | nil => exact ⟨[], [], rfl, rfl⟩
  | cons b bytes => exact ⟨[b], bytes, rfl, rfl⟩

/-- Whatever ends too early was taken to its end. -/
theorem countedOutcome_exhausted (bytes : List UInt8) (pos : Nat) :
    CountedOutcome bytes pos (.error (.truncated (pos + bytes.length)) (Reader.clean bytes pos).exhausted :
      EStateM.Result DecodeError Reader α) :=
  ⟨bytes, [], (List.append_nil _).symm, rfl, fun _ h => ⟨rfl, (DecodeError.truncated.inj h).symm⟩⟩

theorem counts_take (count : Nat) : Counts (take count) := by
  intro bytes pos
  by_cases hlen : count ≤ bytes.length
  · rw [take_of_le (by exact hlen)]
    refine ⟨bytes.take count, bytes.drop count, (List.take_append_drop ..).symm, ?_⟩
    rw [List.length_take_of_le hlen]
    rfl
  · rw [take_of_lt (by exact Nat.lt_of_not_le hlen)]
    exact countedOutcome_exhausted bytes pos

theorem counts_toEnd : Counts toEnd :=
  fun bytes _ => ⟨bytes, [], (List.append_nil _).symm, rfl⟩

theorem counts_groups : Counts groups := by
  intro bytes pos
  cases hread : Leb128.read bytes with
  | none =>
    have hgroups : groups (.clean bytes pos) =
        .error (.truncated (pos + bytes.length)) (Reader.clean bytes pos).exhausted := by
      simp only [groups, Reader.clean_bytes, hread]
      rfl
    rw [hgroups]
    exact countedOutcome_exhausted bytes pos
  | some g =>
    obtain ⟨num, rest, hnum, rfl, rfl⟩ := Leb128.read_eq_some_iff.1 hread
    rw [groups_eq_ok_iff.2 ⟨num, rest, hnum, rfl, rfl, rfl⟩]
    exact ⟨num, rest, rfl, rfl⟩

theorem counts_unsigned : Counts unsigned :=
  counts_groups.bind fun g => counts_pure g.unsigned

theorem counts_signed : Counts signed :=
  counts_groups.bind fun g => counts_pure g.signed

theorem counts_name : Counts name :=
  counts_position.bind fun start => counts_unsigned.bind fun length => (counts_take length.toNat).bind fun _ =>
    (counts_of_error (.invalidName start) (fun _ => rfl) nofun).ofOption

theorem counts_limit : Counts limit :=
  counts_byte.bind fun _ => counts_unsigned.bind fun _ =>
    (counts_pure _).ite (counts_unsigned.bind fun _ => counts_pure _)

theorem counts_delimiter : Counts delimiter :=
  counts_position.bind fun offset => counts_byte.bind fun found =>
    (counts_of_error (.invalidSection .types offset (.delimiter found)) (fun _ => rfl) nofun).ite (counts_pure ())

/-- A word is counted if it is there, and otherwise what is left of the bytes is taken
uncounted. -/
theorem counted_or_misses_word (bytes : List UInt8) (pos : Nat) : CountedOutcome bytes pos (word (.clean bytes pos)) ∨
    word (.clean bytes pos) = .error (.truncated pos) (.clean [] pos) := by
  match bytes with
  | b₀ :: b₁ :: b₂ :: b₃ :: rest => exact .inl ⟨[b₀, b₁, b₂, b₃], rest, rfl, rfl⟩
  | [] | [_] | [_, _] | [_, _, _] => exact .inr rfl

end Read

/-! ## Operations -/

namespace Reader

/-- What a reader can be asked for. -/
inductive Operation
  | byte
  | tryByte
  | take (count : Nat)
  | toEnd
  | word
  | unsigned
  /-- The number of elements that follow. -/
  | vectorLength
  | signed
  | name
  | limit
  | delimiter

namespace Operation

/-- What an operation gives. -/
abbrev Answer : Operation → Type
  | byte => UInt8
  | tryByte => Option UInt8
  | take _ | toEnd => List UInt8
  | word | unsigned | vectorLength => UInt32
  | signed => Int32
  | name => String
  | limit => Limit
  | delimiter => Unit

/-- How an operation reads. -/
def action : (op : Operation) → Read op.Answer
  | byte => Read.byte
  | tryByte => Read.tryByte
  | take count => Read.take count
  | toEnd => Read.toEnd
  | word => Read.word
  | unsigned | vectorLength => Read.unsigned
  | signed => Read.signed
  | name => Read.name
  | limit => Read.limit
  | delimiter => Read.delimiter

/-- Why the operation fails, if it does. -/
def error? (op : Operation) (r : Reader) : Option DecodeError :=
  match op.action r with
  | .ok _ _ => none
  | .error e _ => some e

/-- The operation asks for a word that is not there. -/
def Misses (op : Operation) (r : Reader) : Prop :=
  op = word ∧ (op.error? r).isSome

end Operation

/-- The reader after an operation, whether it succeeds or fails. -/
def serve (r : Reader) (op : Operation) : Reader :=
  match op.action r with
  | .ok _ r' => r'
  | .error _ r' => r'

/-- One of the operations asks for a word that is not there. -/
def MissesWord : Reader → List Operation → Prop
  | _, [] => False
  | r, op :: ops => op.Misses r ∨ MissesWord (r.serve op) ops

/-- The account of a reader of `input`. Bytes that are counted and bytes that are left make
up the input, or less if a word was `missed`. Nothing that the reader can be asked for next
moves it back. If no word was missed, and is not missed now, all that is taken is counted,
and if there is too little to take, then all of the input is. -/
structure Accounts (input : List UInt8) (missed : Prop) (r : Reader) : Prop where
  total_le : r.pos + r.bytes.length ≤ input.length
  total_eq : ¬ missed → r.pos + r.bytes.length = input.length
  pos_le : ∀ op, r.pos ≤ (r.serve op).pos
  taken : ¬ missed → ∀ op : Operation, ¬ op.Misses r →
    r.bytes = input.extract r.pos (r.serve op).pos ++ (r.serve op).bytes
  truncated : ¬ missed → ∀ op : Operation, ¬ op.Misses r → ∀ offset, op.error? r = some (.truncated offset) →
    offset = input.length ∧ (r.serve op).pos = input.length

/-- An operation counts what it takes, or it misses a word and takes all that is left. -/
theorem Operation.counted_or_misses (op : Operation) (bytes : List UInt8) (pos : Nat) :
    Read.CountedOutcome bytes pos (op.action (.clean bytes pos)) ∨
      op.Misses (.clean bytes pos) ∧ (clean bytes pos).serve op = .clean [] pos := by
  cases op with
  | byte => exact .inl (Read.counts_byte bytes pos)
  | tryByte => exact .inl (Read.counts_tryByte bytes pos)
  | take count => exact .inl (Read.counts_take count bytes pos)
  | toEnd => exact .inl (Read.counts_toEnd bytes pos)
  | word =>
    refine (Read.counted_or_misses_word bytes pos).imp_right fun hmisses => ?_
    have haction : word.action (.clean bytes pos) = .error (.truncated pos) (.clean [] pos) := hmisses
    simp [Misses, error?, serve, haction]
  | unsigned | vectorLength => exact .inl (Read.counts_unsigned bytes pos)
  | signed => exact .inl (Read.counts_signed bytes pos)
  | name => exact .inl (Read.counts_name bytes pos)
  | limit => exact .inl (Read.counts_limit bytes pos)
  | delimiter => exact .inl (Read.counts_delimiter bytes pos)

/-- What an operation that counts does to the reader. -/
theorem exists_taken {op : Operation} {bytes : List UInt8} {pos : Nat}
    (h : Read.CountedOutcome bytes pos (op.action (.clean bytes pos))) :
    ∃ taken rest, bytes = taken ++ rest ∧ (clean bytes pos).serve op = .clean rest (pos + taken.length) ∧
      ∀ offset, op.error? (.clean bytes pos) = some (.truncated offset) →
        rest = [] ∧ offset = pos + taken.length := by
  simp only [serve, Operation.error?]
  cases haction : op.action (.clean bytes pos) with
  | ok a r =>
    rw [haction] at h
    obtain ⟨taken, rest, hbytes, hr⟩ := h
    exact ⟨taken, rest, hbytes, hr, nofun⟩
  | error e r =>
    rw [haction] at h
    obtain ⟨taken, rest, hbytes, hr, htruncated⟩ := h
    exact ⟨taken, rest, hbytes, hr, fun offset he => htruncated offset (Option.some.inj he)⟩

theorem eq_clean {r : Reader} (h : r.failure = none) : r = clean r.bytes r.pos := by
  obtain ⟨⟨bytes, failure⟩, pos⟩ := r
  cases h
  rfl

/-- No operation moves a reader back, or finds bytes that were not there. -/
theorem serve_le {r : Reader} (h : r.failure = none) (op : Operation) :
    (r.serve op).failure = none ∧ r.pos ≤ (r.serve op).pos ∧
      (r.serve op).pos + (r.serve op).bytes.length ≤ r.pos + r.bytes.length := by
  rw [eq_clean h]
  rcases op.counted_or_misses r.bytes r.pos with hcounted | ⟨-, hserve⟩
  · obtain ⟨taken, rest, hbytes, hserve, -⟩ := exists_taken hcounted
    rw [hserve, hbytes]
    refine ⟨rfl, Nat.le_add_right .., ?_⟩
    simp only [clean_bytes, clean_pos, List.length_append]
    omega
  · rw [hserve]
    exact ⟨rfl, Nat.le_refl _, Nat.add_le_add_left (Nat.zero_le _) _⟩

theorem foldl_serve_le {r : Reader} (h : r.failure = none) (ops : List Operation) :
    (ops.foldl serve r).failure = none ∧
      (ops.foldl serve r).pos + (ops.foldl serve r).bytes.length ≤ r.pos + r.bytes.length := by
  induction ops generalizing r with
  | nil => exact ⟨h, Nat.le_refl _⟩
  | cons op ops ih =>
    obtain ⟨hserve, -, hle⟩ := serve_le h op
    exact ⟨(ih hserve).1, Nat.le_trans (ih hserve).2 hle⟩

/-- The reader stands in `input` where its count says. -/
def StandsIn (input : List UInt8) (r : Reader) : Prop :=
  ∃ front rest, input = front ++ rest ∧ r = .clean rest front.length

/-- What an operation does to a reader that stands where its count says, unless it misses a
word. -/
theorem StandsIn.exists_taken {input : List UInt8} {r : Reader} (h : r.StandsIn input) {op : Operation}
    (hop : ¬ op.Misses r) :
    ∃ front taken rest, input = front ++ (taken ++ rest) ∧ r = .clean (taken ++ rest) front.length ∧
      r.serve op = .clean rest (front.length + taken.length) ∧
      ∀ offset, op.error? r = some (.truncated offset) → rest = [] ∧ offset = front.length + taken.length := by
  obtain ⟨front, bytes, rfl, rfl⟩ := h
  rcases op.counted_or_misses bytes front.length with hcounted | ⟨hmisses, -⟩
  · obtain ⟨taken, rest, rfl, hserve, htruncated⟩ := Reader.exists_taken hcounted
    exact ⟨front, taken, rest, rfl, rfl, hserve, htruncated⟩
  · exact absurd hmisses hop

theorem StandsIn.serve {input : List UInt8} {r : Reader} (h : r.StandsIn input) {op : Operation}
    (hop : ¬ op.Misses r) : (r.serve op).StandsIn input := by
  obtain ⟨front, taken, rest, hinput, -, hserve, -⟩ := h.exists_taken hop
  refine ⟨front ++ taken, rest, ?_, ?_⟩
  · rw [hinput, List.append_assoc]
  · rw [hserve, List.length_append]

theorem StandsIn.foldl_serve {input : List UInt8} {r : Reader} (h : r.StandsIn input) {ops : List Operation}
    (hops : ¬ r.MissesWord ops) : (ops.foldl Reader.serve r).StandsIn input := by
  induction ops generalizing r with
  | nil => exact h
  | cons op ops ih =>
    obtain ⟨hop, hops⟩ := not_or.1 hops
    exact ih (h.serve hop) hops

/-- After any operations on a byte string, those that failed among them, the reader can
account for all of its bytes unless a word was missed, and never for more. -/
theorem accounts_of_operations (input : List UInt8) (ops : List Operation) :
    (ops.foldl serve (ofBytes input)).Accounts input ((ofBytes input).MissesWord ops) := by
  have hstart : (ofBytes input).StandsIn input := ⟨[], input, rfl, rfl⟩
  obtain ⟨hclean, hle⟩ := foldl_serve_le (r := ofBytes input) rfl ops
  constructor
  case total_le => rwa [ofBytes_eq, clean_pos, clean_bytes, Nat.zero_add] at hle
  case total_eq =>
    intro hops
    obtain ⟨front, rest, hinput, hr⟩ := hstart.foldl_serve hops
    rw [hr, hinput, List.length_append]
    rfl
  case pos_le => exact fun op => (serve_le hclean op).2.1
  case taken =>
    intro hops op hop
    obtain ⟨front, taken, rest, hinput, hr, hserve, -⟩ := (hstart.foldl_serve hops).exists_taken hop
    rw [hserve, hr, hinput]
    simp
  case truncated =>
    intro hops op hop offset herror
    obtain ⟨front, taken, rest, hinput, -, hserve, htruncated⟩ := (hstart.foldl_serve hops).exists_taken hop
    obtain ⟨rfl, rfl⟩ := htruncated offset herror
    rw [hserve, hinput]
    simp

/-- A word that is missed: two bytes are gone, and none is counted. -/
example : ((ofBytes [1, 2]).serve .word).pos = 0 ∧ ((ofBytes [1, 2]).serve .word).bytes = [] := by decide

end Reader

end StackVm
