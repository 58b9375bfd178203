import StackVm.Proofs.Binary.Concatenation

/-!
# Frames on any source

What the bytes of a source hold in store for the next frame, whether the source
ends cleanly or fails after them. Behind the number of a section the size may be
cut short, the content may be cut short, or the content may be refused; if it is
none of these there is a frame.

* `Read.frame?_of_unfinished`, `Read.frame?_of_short`, `Read.frame?_of_content`:
  what is read in each case, and `exists_content` that there are no others;
* `FrameAt`, `FramesAt`: the bytes of one frame, and of frames one after
  another, with all that is recorded of them;
* `exists_framesAt_of_decode`: what is decoded is opening bytes and frames;
* `Read.exists_fault_of_preamble`: what is held against other opening bytes.
-/

namespace StackVm

open Leb128 (Spells)

/-- Bytes behind the number of a frame end inside a size, or start with one and
end before so many bytes of content, or start with both. -/
theorem exists_content (bytes : List UInt8) :
    Leb128.read bytes = none ∨
    (∃ size n content, Spells size n ∧ content.length < n.toNat ∧ bytes = size ++ content) ∨
    ∃ size n content rest, Spells size n ∧ n.toNat = content.length ∧ bytes = size ++ content ++ rest := by
  cases hread : Leb128.read bytes with
  | none => exact .inl rfl
  | some g =>
    obtain ⟨size, rest, hsize, rfl, rfl⟩ := Leb128.read_eq_some_iff.1 hread
    have hspells := Leb128.spells_ofNumeral hsize rest
    generalize (Leb128.Groups.ofNumeral size rest).unsigned = n at hspells
    refine .inr ?_
    by_cases hshort : rest.length < n.toNat
    · exact .inl ⟨size, n, rest, hspells, hshort, rfl⟩
    · refine .inr ⟨size, n, rest.take n.toNat, rest.drop n.toNat, hspells, ?_, ?_⟩
      · rw [List.length_take]
        omega
      · rw [List.append_assoc, List.take_append_drop]

namespace Read

variable {failure : Option Failure} {pos : Nat}

theorem exists_of_bind_eq_error {α β : Type} {action : Read α} {next : α → Read β} {r r' : Reader}
    {e : DecodeError} (h : (action >>= next) r = .error e r') :
    action r = .error e r' ∨ ∃ a r₁, action r = .ok a r₁ ∧ next a r₁ = .error e r' := by
  simp only [Bind.bind, EStateM.bind] at h
  split at h
  · next a r₁ ha => exact .inr ⟨a, r₁, ha, h⟩
  · next e' r₁ ha =>
    cases h
    exact .inl ha

/-! ## The next frame -/

theorem unsigned_of_spells {size : List UInt8} {n : UInt32} (h : Spells size n) (rest : List UInt8) :
    unsigned ⟨⟨size ++ rest, failure⟩, pos⟩ = .ok n ⟨⟨rest, failure⟩, pos + size.length⟩ := by
  refine bind_eq_ok_iff.2 ⟨_, _, groups_eq_ok_iff.2 ⟨size, rest, h.1, rfl, rfl, rfl⟩, ?_⟩
  rw [h.unsigned_eq]
  rfl

theorem unsigned_of_unfinished {bytes : List UInt8} (h : Leb128.read bytes = none) :
    unsigned ⟨⟨bytes, failure⟩, pos⟩ =
      .error (Reader.ending ⟨⟨[], failure⟩, pos + bytes.length⟩) ⟨⟨[], failure⟩, pos + bytes.length⟩ := by
  simp only [unsigned, Bind.bind, EStateM.bind, groups, h]
  rfl

/-- Behind the number of a frame follows the rest of it. -/
theorem frame?_cons (id : UInt8) (bytes : List UInt8) : frame? ⟨⟨id :: bytes, failure⟩, pos⟩ =
    (frameOf pos id >>= fun f => pure (some f)) ⟨⟨bytes, failure⟩, pos + 1⟩ := rfl

/-- The source ends inside the size of a frame. -/
theorem frame?_of_unfinished {bytes : List UInt8} (h : Leb128.read bytes = none) (id : UInt8) : ∃ r,
    frame? ⟨⟨id :: bytes, failure⟩, pos⟩ =
      .error (Reader.ending ⟨⟨[], failure⟩, pos + (id :: bytes).length⟩) r := by
  have hpos : pos + (id :: bytes).length = pos + 1 + bytes.length := by
    simp only [List.length_cons]
    omega
  rw [frame?_cons, hpos]
  simp only [frameOf, Bind.bind, EStateM.bind, unsigned_of_unfinished h]
  exact ⟨_, rfl⟩

/-- The source ends inside the content of a frame. -/
theorem frame?_of_short {size content : List UInt8} {n : UInt32} (h : Spells size n)
    (hlen : content.length < n.toNat) (id : UInt8) : ∃ r,
    frame? ⟨⟨id :: (size ++ content), failure⟩, pos⟩ =
      match failure with
      | some f => .error (.readFailed (pos + (id :: size).length) f.text) r
      | none => .error (.truncated (pos + (id :: (size ++ content)).length)) r := by
  have hbase : pos + (id :: size).length = pos + 1 + size.length := by
    simp only [List.length_cons]
    omega
  have hend : pos + (id :: (size ++ content)).length = pos + 1 + size.length + content.length := by
    simp only [List.length_cons, List.length_append]
    omega
  have htake := take_of_lt (r := ⟨⟨content, failure⟩, pos + 1 + size.length⟩) hlen
  rw [frame?_cons, hbase, hend]
  simp only [frameOf, Bind.bind, EStateM.bind, unsigned_of_spells h, position, htake]
  cases failure with
  | none => exact ⟨_, rfl⟩
  | some f => exact ⟨_, rfl⟩

/-- The content of a frame is there. -/
theorem frame?_of_content {size content : List UInt8} {n : UInt32} (h : Spells size n)
    (hlen : n.toNat = content.length) (id : UInt8) (rest : List UInt8) :
    frame? ⟨⟨id :: (size ++ content) ++ rest, failure⟩, pos⟩ =
      let stop := pos + (id :: (size ++ content)).length
      match Section.read id content with
      | .ok (s, trailing) =>
        .ok (some { id, size := n, span := ⟨pos, stop⟩, content := s, trailing }) ⟨⟨rest, failure⟩, stop⟩
      | .error e => .error (e.rebase (pos + (id :: size).length)) ⟨⟨rest, failure⟩, stop⟩ := by
  have hbase : pos + (id :: size).length = pos + 1 + size.length := by
    simp only [List.length_cons]
    omega
  have hend : pos + (id :: (size ++ content)).length = pos + 1 + size.length + content.length := by
    simp only [List.length_cons, List.length_append]
    omega
  have htake := @take_of_le n.toNat ⟨⟨content ++ rest, failure⟩, pos + 1 + size.length⟩
    (by simp only [List.length_append]; omega)
  simp only [hlen, List.take_left', List.drop_left'] at htake
  rw [List.cons_append, List.append_assoc, frame?_cons, hbase, hend]
  simp only [frameOf, Bind.bind, EStateM.bind, unsigned_of_spells h, position, hlen, htake]
  cases Section.read id content with
  | error e => rfl
  | ok read => rfl

end Read

/-! ## Frames -/

/-- `front` is the frame of which `f` is recorded when it starts at `pos`. -/
inductive FrameAt (pos : Nat) : List UInt8 → Framed → Prop
  | intro {id : UInt8} {size content : List UInt8} {n : UInt32} {s : Section} {trailing : Nat} :
    Spells size n → n.toNat = content.length → Section.read id content = .ok (s, trailing) →
      FrameAt pos (id :: (size ++ content))
        { id, size := n, span := ⟨pos, pos + (id :: (size ++ content)).length⟩, content := s, trailing }

/-- `bytes` are the frames of which `frames` are recorded when the first of them
starts at `pos`. -/
inductive FramesAt : Nat → List UInt8 → List Framed → Prop
  | nil {pos : Nat} : FramesAt pos [] []
  | cons {pos : Nat} {front back : List UInt8} {f : Framed} {frames : List Framed} :
    FrameAt pos front f → FramesAt (pos + front.length) back frames →
      FramesAt pos (front ++ back) (f :: frames)

variable {pos : Nat} {front bytes : List UInt8} {f : Framed} {frames : List Framed}

theorem FrameAt.span_eq (h : FrameAt pos front f) : f.span = ⟨pos, pos + front.length⟩ := by
  cases h
  rfl

theorem FrameAt.length_pos (h : FrameAt pos front f) : 0 < front.length := by
  cases h
  simp

/-- A frame is read on any source, whatever follows. -/
theorem FrameAt.frame?_append (h : FrameAt pos front f) (rest : List UInt8) (failure : Option Failure) :
    Read.frame? ⟨⟨front ++ rest, failure⟩, pos⟩ =
      .ok (some f) ⟨⟨rest, failure⟩, pos + front.length⟩ := by
  obtain ⟨hsize, hlen, hread⟩ := h
  simp only [Read.frame?_of_content hsize hlen, hread]

/-- What is read as a frame is one. -/
theorem exists_frameAt_of_frame? {r : Reader} (h : Read.frame? (.clean bytes pos) = .ok (some f) r) :
    ∃ front rest, bytes = front ++ rest ∧ FrameAt pos front f ∧ r = .clean rest (pos + front.length) := by
  cases bytes with
  | nil => cases h
  | cons id bytes =>
    rcases exists_content bytes with hnone | ⟨size, n, content, hsize, hshort, rfl⟩ |
      ⟨size, n, content, rest, hsize, hlen, rfl⟩
    · obtain ⟨_, herror⟩ := @Read.frame?_of_unfinished none pos bytes hnone id
      cases h.symm.trans herror
    · obtain ⟨_, herror⟩ := @Read.frame?_of_short none pos size content n hsize hshort id
      cases h.symm.trans herror
    · rw [Reader.clean, ← List.cons_append, Read.frame?_of_content hsize hlen] at h
      refine ⟨id :: (size ++ content), rest, rfl, ?_⟩
      cases hread : Section.read id content with
      | error e =>
        rw [hread] at h
        cases h
      | ok read =>
        rw [hread] at h
        cases h
        exact ⟨.intro hsize hlen hread, rfl⟩

/-- A scan that reaches the end has passed over frames. -/
theorem exists_framesAt_of_scanFrames {done : Array Framed} {length : Nat}
    (h : (scanFrames (.clean bytes pos) done).outcome = .ok length) :
    ∃ frames, FramesAt pos bytes frames ∧
      (scanFrames (.clean bytes pos) done).frames = done ++ frames.toArray := by
  generalize hr : Reader.clean bytes pos = r at h ⊢
  induction r, done using scanFrames.induct generalizing bytes pos with
  | case1 r done f r' hf ih =>
    subst hr
    obtain ⟨front, rest, rfl, hframe, rfl⟩ := exists_frameAt_of_frame? hf
    rw [scanFrames_of_frame hf] at h ⊢
    obtain ⟨frames, hframes, hdone⟩ := ih rfl h
    refine ⟨f :: frames, .cons hframe hframes, ?_⟩
    rw [hdone]
    simp
  | case2 r done r' hf =>
    subst hr
    cases Read.eq_nil_of_frame? hf
    rw [scanFrames_nil]
    exact ⟨[], .nil, by simp⟩
  | case3 r done e r' hf =>
    rw [scanFrames_of_error hf] at h
    cases h

/-! ## Decoding -/

/-- A module holds what is recorded of some frames. -/
structure Module.Records (m : Module) (frames : List Framed) : Prop where
  sections_eq : m.sections.toList = frames.map Framed.content
  spans_eq : m.spans.toList = frames.map Framed.span

theorem Scan.records_toModule (s : Scan) (name : String) : (s.toModule name).Records s.frames.toList :=
  ⟨toList_sections_toModule s name, toList_spans_toModule s name⟩

/-- What is decoded is opening bytes and frames. -/
theorem exists_framesAt_of_decode {m : Module} (h : decode bytes = .ok m) :
    ∃ rest frames, bytes = opening ++ rest ∧ FramesAt 8 rest frames ∧ m.Records frames := by
  obtain @⟨rest, _, -⟩ := moduleForm_of_decode h
  replace h : decode (opening ++ rest) = .ok m := h
  rw [decode_opening_append, Scan.module?_eq_ok_iff] at h
  obtain ⟨⟨length, hlength⟩, rfl⟩ := h
  obtain ⟨frames, hframes, hdone⟩ := exists_framesAt_of_scanFrames hlength
  have hrecords := (scanFrames (.clean rest 8) #[]).records_toModule "module"
  rw [hdone, Array.empty_append] at hrecords
  exact ⟨rest, frames, rfl, hframes, hrecords⟩

/-! ## Opening bytes -/

namespace Read

theorem exists_fault_of_orFault {α : Type} {action : Read α} {fault : ModuleFault} {r r' : Reader}
    {e : DecodeError} (h : action.orFault fault r = .error e r') : e = .invalidModule fault := by
  rw [orFault] at h
  split at h <;> cases h
  rfl

/-- Opening bytes that are not in order are a fault of the module. -/
theorem exists_fault_of_preamble {r r' : Reader} {e : DecodeError} (h : preamble r = .error e r') :
    ∃ fault, e = .invalidModule fault := by
  rcases exists_of_bind_eq_error h with h | ⟨found, r₁, -, h⟩
  · exact ⟨_, exists_fault_of_orFault h⟩
  by_cases hmagic : found ≠ magic
  · simp only [if_pos hmagic] at h
    cases h
    exact ⟨_, rfl⟩
  simp only [if_neg hmagic] at h
  rcases exists_of_bind_eq_error h with h | ⟨found, r₂, -, h⟩
  · exact ⟨_, exists_fault_of_orFault h⟩
  by_cases hversion : found ≠ version
  · simp only [if_pos hversion] at h
    cases h
    exact ⟨_, rfl⟩
  · simp only [if_neg hversion] at h
    cases h

end Read

end StackVm
