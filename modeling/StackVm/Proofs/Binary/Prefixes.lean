import StackVm.Proofs.Binary.Contents
import StackVm.Proofs.Binary.Stability

/-!
# Contents are read from the front

A section that holds a vector is read from the front of its content, entry by entry,
and how many bytes there are is found out only by running out of them. Space is
reserved by the bytes that are left, but nothing that is read depends on it. So

* behind the vector there may be anything (`Section.read_append`);
* what is wrong with an entry stays wrong, whatever follows (`Section.read_append_of_error`);
* a content that is cut off inside the vector ends too early, and is refused for that
  at the cut (`Section.read_take`).

The first two are one property of readers, `Read.Stable`, which every reader of entries
has; the third follows from them, for a content is its front with more behind it.
-/

namespace StackVm

namespace Read

variable {α β : Type}

/-! ## Stable readers -/

/-- An action that fails, always for the same reason. -/
theorem stable_of_error {action : Read α} (e : DecodeError) (h : ∀ r, action r = .error e r) : Stable action := by
  intro bytes pos more
  rw [h]
  exact .inr ⟨_, h _⟩

theorem Stable.ite {c : Prop} {_ : Decidable c} {action other : Read α} (h : Stable action)
    (h' : Stable other) : Stable (if c then action else other) := by
  by_cases hc : c
  · rwa [if_pos hc]
  · rwa [if_neg hc]

theorem Stable.ofOption {o : Option α} {fallback : Read α} (h : Stable fallback) :
    Stable (ofOption o fallback) := by
  cases o with
  | none => exact h
  | some a => exact stable_pure a

theorem Stable.map {action : Read α} (h : Stable action) (f : α → β) : Stable (f <$> action) := by
  rw [map_eq_pure_bind]
  exact h.bind fun a => stable_pure (f a)

theorem stable_byte : Stable byte := by
  refine reads_byte.stable fun bytes pos more e r h => .inl ?_
  cases bytes with
  | nil =>
    cases h
    rfl
  | cons b bytes => cases h

/-! ## Vectors -/

theorem Stable.repeated {element : Read α} (h : Stable element) (count : Nat) (done : Array α) :
    Stable (repeated element count done) := by
  induction count generalizing done with
  | zero => exact stable_pure done
  | succ count ih => exact h.bind fun a => ih (done.push a)

theorem stable_count (kind : SectionKind) (what : Counted) : Stable (count kind what) :=
  .position_bind fun offset => stable_unsigned.bind fun n =>
    .ite (stable_of_error (.invalidSection kind offset (.tooMany what n)) fun _ => rfl) (stable_pure n)

theorem Stable.vector {element : Read α} (h : Stable element) (size : Nat) (kind : SectionKind) (what : Counted) :
    Stable (vector allocate size kind what element) := by
  rw [vector_allocate]
  exact (stable_count kind what).bind fun n => (h.repeated n.toNat #[]).bind fun all => stable_pure _

/-! ## Entries -/

theorem stable_name : Stable name :=
  .position_bind fun start => stable_unsigned.bind fun n => (stable_take n.toNat).bind fun _ =>
    .ofOption (stable_of_error (.invalidName start) fun _ => rfl)

theorem stable_limit : Stable limit :=
  stable_byte.bind fun _ => stable_unsigned.bind fun _ =>
    .ite (stable_pure _) (stable_unsigned.bind fun _ => stable_pure _)

theorem stable_valueType (kind : SectionKind) : Stable (valueType kind) :=
  .position_bind fun offset => stable_byte.bind fun code =>
    .ofOption (stable_of_error (.invalidSection kind offset (.valueType code)) fun _ => rfl)

theorem stable_functionType (size : Nat) : Stable (functionType allocate size) := by
  have hdelimiter : Stable delimiter :=
    .position_bind fun offset => stable_byte.bind fun found =>
      .ite (stable_of_error (.invalidSection .types offset (.delimiter found)) fun _ => rfl) (stable_pure ())
  have htypes := (stable_valueType .types).vector size .types .valueTypes
  exact hdelimiter.bind fun _ => htypes.bind fun _ => htypes.bind fun _ => stable_pure _

theorem stable_table : Stable table :=
  .position_bind fun offset => stable_byte.bind fun code =>
    (Stable.ofOption (stable_of_error (.invalidSection .tables offset (.refType code)) fun _ => rfl)).bind
      fun _ => stable_limit.bind fun _ => stable_pure _

theorem stable_memories : Stable (memories allocate) :=
  .position_bind fun offset => stable_unsigned.bind fun n =>
    .ite (stable_of_error (.invalidSection .memories offset (.memoryCount n)) fun _ => rfl)
      ((stable_limit.repeated n.toNat #[]).bind fun _ => stable_pure _)

theorem stable_exportEntry : Stable exportEntry :=
  stable_name.bind fun _ => .position_bind fun offset => stable_byte.bind fun code =>
    (Stable.ofOption (stable_of_error (.invalidSection .exports offset (.exportKind code)) fun _ => rfl)).bind
      fun _ => stable_unsigned.bind fun _ => stable_pure _

/-- The function in an entry is read to the end of the entry, wherever the content
ends. -/
theorem stable_codeEntry : Stable codeEntry :=
  .position_bind fun offset => stable_unsigned.bind fun n =>
    .ite (stable_of_error (.invalidSection .code offset (.entryTooLong n)) fun _ => rfl)
      (.position_bind fun start => (stable_take n.toNat).bind fun _ => stable_ofPart start _)

/-- The sections that hold vectors have readers that are stable, and do not depend on
the content otherwise. -/
theorem exists_stable_sectionContent {id : UInt8} (hid : id ∈ [1, 3, 4, 5, 7, 10]) :
    ∃ action : Read Section, Stable action ∧ ∀ content, sectionContent allocate id content = action := by
  simp only [List.mem_cons, List.not_mem_nil, or_false] at hid
  -- the size of the section bears on nothing but space, so any number stands for it
  rcases hid with rfl | rfl | rfl | rfl | rfl | rfl
  · exact ⟨_, ((stable_functionType 0).vector 0 .types .types).map .types, fun _ => rfl⟩
  · exact ⟨_, (stable_unsigned.vector 0 .functions .functions).map .functions, fun _ => rfl⟩
  · exact ⟨_, (stable_table.vector 0 .tables .tables).map .tables, fun _ => rfl⟩
  · exact ⟨_, stable_memories.map .memories, fun _ => rfl⟩
  · exact ⟨_, (stable_exportEntry.vector 0 .exports .exports).map .exports, fun _ => rfl⟩
  · exact ⟨_, (stable_codeEntry.vector 0 .code .bodies).map .code, fun _ => rfl⟩

end Read

/-! ## Sections -/

namespace Section

variable {id : UInt8} {content : List UInt8} {s : Section} {trailing : Nat}

theorem read_eq_error_iff {e : DecodeError} : read id content = .error e ↔
    ∃ r, Read.sectionContent Read.allocate id content (.clean content 0) = .error e r := by
  rw [read, readWith, Reader.ofBytes_eq]
  cases Read.sectionContent Read.allocate id content (.clean content 0) with
  | ok s r => simp
  | error e' r => simp

theorem read_append (hid : id ∈ [1, 3, 4, 5, 7, 10]) (h : read id content = .ok (s, trailing)) :
    trailing ≤ content.length ∧ ∀ more, read id (content ++ more) = .ok (s, trailing + more.length) := by
  obtain ⟨action, hstable, haction⟩ := Read.exists_stable_sectionContent hid
  obtain ⟨r, hok, rfl⟩ := read_eq_ok_iff.1 h
  rw [haction] at hok
  constructor
  · have hmore := hstable content 0 []
    rw [hok] at hmore
    obtain ⟨front, rest, rfl, rfl, -⟩ := hmore
    rw [Reader.clean_bytes, List.length_append]
    omega
  · intro more
    have hmore := hstable content 0 more
    rw [hok] at hmore
    obtain ⟨front, rest, -, rfl, hlonger⟩ := hmore
    refine read_eq_ok_iff.2 ⟨_, (haction _).symm ▸ hlonger, ?_⟩
    rw [Reader.clean_bytes, Reader.clean_bytes, List.length_append]

theorem read_append_of_error (hid : id ∈ [1, 3, 4, 5, 7, 10]) {e : DecodeError}
    (h : read id content = .error e) (he : e ≠ .truncated content.length) (more : List UInt8) :
    read id (content ++ more) = .error e := by
  obtain ⟨action, hstable, haction⟩ := Read.exists_stable_sectionContent hid
  obtain ⟨r, herror⟩ := read_eq_error_iff.1 h
  have hmore := hstable content 0 more
  rw [haction] at herror
  rw [herror] at hmore
  rcases hmore with hshort | ⟨r', hlonger⟩
  · rw [Nat.zero_add] at hshort
    exact absurd hshort he
  · exact read_eq_error_iff.2 ⟨r', (haction _).symm ▸ hlonger⟩

theorem read_take (hid : id ∈ [1, 3, 4, 5, 7, 10]) (h : read id content = .ok (s, trailing)) {cut : Nat}
    (hcut : cut < content.length - trailing) : read id (content.take cut) = .error (.truncated cut) := by
  have hlen : (content.take cut).length = cut := by
    rw [List.length_take]
    omega
  cases hfront : read id (content.take cut) with
  | ok result =>
    -- what follows the cut would be left over, and that is more than what is left over
    obtain ⟨s', trailing'⟩ := result
    have hwhole := (read_append hid hfront).2 (content.drop cut)
    rw [List.take_append_drop, h, List.length_drop] at hwhole
    cases hwhole
    omega
  | error e =>
    by_cases he : e = .truncated cut
    · rw [he]
    · have hwhole := read_append_of_error hid hfront (by rwa [hlen]) (content.drop cut)
      rw [List.take_append_drop, h] at hwhole
      cases hwhole

/-- A section that holds a vector is read from the front of its content. What stands
behind the vector changes the number of bytes that are left over and nothing else, and
every byte of the vector is needed: a content that is cut off inside it ends too early,
just at the cut. A failure that is not a lack of bytes stays, whatever follows. -/
theorem read_from_front (hid : id ∈ [1, 3, 4, 5, 7, 10]) (content : List UInt8) :
    (∀ s trailing, read id content = .ok (s, trailing) → trailing ≤ content.length ∧
      (∀ more, read id (content ++ more) = .ok (s, trailing + more.length)) ∧
      ∀ cut, cut < content.length - trailing → read id (content.take cut) = .error (.truncated cut)) ∧
    ∀ e, read id content = .error e → e ≠ .truncated content.length →
      ∀ more, read id (content ++ more) = .error e :=
  ⟨fun _ _ h => ⟨(read_append hid h).1, (read_append hid h).2, fun _ => read_take hid h⟩,
    fun _ h he => read_append_of_error hid h he⟩

/-- A function with two locals and two bytes behind it, with more behind those and cut
off inside the function. A signature that does not start with its delimiter is none with
more behind it. -/
theorem read_from_front_code :
    let code : List UInt8 := [1, 4, 1, 2, 0x7f, 0x0b, 9, 9]
    let s : Section := .code [⟨[.i32, .i32], [0x0b]⟩]
    let types : List UInt8 := [1, 0x61]
    let e : DecodeError := .invalidSection .types 1 (.delimiter 0x61)
    read 10 code = .ok (s, 2) ∧ read 10 (code ++ [7]) = .ok (s, 3) ∧
      read 10 (code.take 5) = .error (.truncated 5) ∧
      read 1 types = .error e ∧ read 1 (types ++ [0, 0]) = .error e := by
  intro code s types e
  have hcode : read 10 code = .ok (s, 2) := rfl
  have htypes : read 1 types = .error e := rfl
  obtain ⟨-, hmore, hcut⟩ := (read_from_front (by decide) code).1 s 2 hcode
  refine ⟨hcode, hmore [7], hcut 5 (by decide), htypes, ?_⟩
  exact (read_from_front (by decide) types).2 e htypes (by decide) [0, 0]

end Section

end StackVm
