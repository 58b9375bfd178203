import StackVm.Proofs.Binary.Refusals

/-!
# Where decoding fails

A failure names a place in the input, and at that place stands what it is about
(`DecodeError.PointsInto`): the byte that is refused, the first byte of the number that
is too large, or the length of the name that is not UTF-8. An end that comes too early
is placed where the bytes end that were to be read: those of the input, of a content,
or of the entry of a function. `decode_error_place` says so of every failure behind the
opening bytes, and that the place is in the content of the first frame that fails.

* `Refusal.pointsInto`: what is held against a content, seen from the whole input;
* `exists_failing_frame`: the frame for which a scan stops.
-/

namespace StackVm

open Leb128 (Spells)

/-! ## Places -/

/-- A number stands at `offset`, in some spelling, and ends before `stop`. -/
def SpelledAt (bytes : List UInt8) (offset stop : Nat) (n : UInt32) : Prop :=
  ∃ num rest, bytes.drop offset = num ++ rest ∧ Spells num n ∧ offset + num.length ≤ stop

/-- What a fault is about stands at `offset`, in front of `stop`. -/
def SectionFault.PointsAt (bytes : List UInt8) (offset stop : Nat) : SectionFault → Prop
  | delimiter found | valueType found | refType found | exportKind found => bytes[offset]? = some found
  | tooMany _ n | memoryCount n | entryTooLong n => SpelledAt bytes offset stop n
  | tooManyLocals => ∃ n, SpelledAt bytes offset stop n
  | other _ => False

/-- In the content of a code section, an entry ends at `stop` that is too short for
the function in it. -/
inductive ShortEntry (content : List UInt8) : Nat → Prop
  | intro {front num entry rest : List UInt8} {entries : List Function} {n : UInt32} :
    content = front ++ num ++ (entry ++ rest) → Partway EntryForm front entries → Spells num n →
    n.toNat = entry.length → Read.function.onBytes entry = .error (.truncated entry.length) →
      ShortEntry content (front ++ num ++ entry).length

/-- A failure points into the content of a section, which starts at `start`. -/
def DecodeError.PointsInto (bytes : List UInt8) (kind : SectionKind) (start : Nat) (content : List UInt8) :
    DecodeError → Prop
  | invalidSection named offset fault => named = kind ∧
      start ≤ offset ∧ offset < min (start + content.length) bytes.length ∧
      fault.PointsAt bytes offset (start + content.length)
  | invalidName offset => start ≤ offset ∧ offset < start + content.length ∧
      (∃ n, SpelledAt bytes offset (start + content.length) n) ∧ Misnamed (bytes.drop offset)
  | truncated offset => offset = start + content.length ∨
      kind = .code ∧ ∃ stop, ShortEntry content stop ∧ offset = start + stop
  | invalidModule _ | readFailed .. => False

section

variable {lead after content front rest num : List UInt8} {offset : Nat} {kind : SectionKind}
  {fault : SectionFault}

theorem spelledAt_append {n : UInt32} (hcontent : content = front ++ (num ++ rest))
    (hoffset : offset = front.length + lead.length) (hnum : Spells num n) :
    SpelledAt (lead ++ (content ++ after)) offset (lead.length + content.length) n := by
  refine ⟨num, rest ++ after, ?_, hnum, ?_⟩
  · have hbytes : lead ++ (content ++ after) = lead ++ front ++ (num ++ (rest ++ after)) := by
      simp [hcontent]
    rw [hbytes, hoffset, Nat.add_comm, ← List.length_append, List.drop_left]
  · rw [hcontent, hoffset]
    simp only [List.length_append]
    omega

/-- A fault that is about a byte. -/
theorem pointsInto_of_byte {found : UInt8} (hcontent : content = front ++ found :: rest)
    (hoffset : offset = front.length + lead.length)
    (hfault : ∀ bytes stop, bytes[offset]? = some found → fault.PointsAt bytes offset stop) :
    (DecodeError.invalidSection kind offset fault).PointsInto (lead ++ (content ++ after)) kind lead.length
      content := by
  refine ⟨rfl, by omega, ?_, hfault _ _ ?_⟩
  · rw [hcontent, hoffset]
    simp only [List.length_append, List.length_cons]
    omega
  · have hbytes : lead ++ (content ++ after) = lead ++ front ++ found :: (rest ++ after) := by
      simp [hcontent]
    rw [hbytes, hoffset, Nat.add_comm, ← List.length_append, List.getElem?_append_right (Nat.le_refl _)]
    simp

/-- A fault that is about a number. -/
theorem pointsInto_of_spells {n : UInt32} (hcontent : content = front ++ (num ++ rest))
    (hoffset : offset = front.length + lead.length) (hnum : Spells num n)
    (hfault : ∀ bytes stop, SpelledAt bytes offset stop n → fault.PointsAt bytes offset stop) :
    (DecodeError.invalidSection kind offset fault).PointsInto (lead ++ (content ++ after)) kind lead.length
      content := by
  have hpos := hnum.1.length_pos
  refine ⟨rfl, by omega, ?_, hfault _ _ (spelledAt_append hcontent hoffset hnum)⟩
  rw [hcontent, hoffset]
  simp only [List.length_append]
  omega

theorem pointsInto_of_misnamed {back : List UInt8} (hback : Misnamed back) :
    (DecodeError.invalidName (front.length + lead.length)).PointsInto (lead ++ ((front ++ back) ++ after)) kind
      lead.length (front ++ back) := by
  obtain @⟨num, text, rest, n, hnum, hlen, hnone⟩ := hback
  have hpos := hnum.1.length_pos
  refine ⟨by omega, ?_, ⟨n, spelledAt_append rfl rfl hnum⟩, ?_⟩
  · simp only [List.length_append]
    omega
  · have hbytes : lead ++ ((front ++ (num ++ (text ++ rest))) ++ after) =
        lead ++ front ++ (num ++ (text ++ (rest ++ after))) := by simp
    rw [hbytes, Nat.add_comm, ← List.length_append, List.drop_left]
    exact .intro hnum hlen hnone

end

/-- What is held against a content points into it, wherever it stands. -/
theorem Refusal.pointsInto {kind : SectionKind} {content : List UInt8} {e : DecodeError}
    (h : Refusal kind content e) (lead after : List UInt8) :
    (e.rebase lead.length).PointsInto (lead ++ (content ++ after)) kind lead.length content := by
  cases h with
  | ending => exact .inl (Nat.add_comm ..)
  | count _ hnum _ => exact pointsInto_of_spells (List.nil_append _).symm rfl hnum fun _ _ => id
  | delimiter _ _ => exact pointsInto_of_byte rfl rfl fun _ _ => id
  | valueTypeCount _ hnum _ => exact pointsInto_of_spells rfl rfl hnum fun _ _ => id
  | valueType _ _ _ => exact pointsInto_of_byte rfl rfl fun _ _ => id
  | refType _ _ => exact pointsInto_of_byte rfl rfl fun _ _ => id
  | memoryCount hnum _ => exact pointsInto_of_spells (List.nil_append _).symm rfl hnum fun _ _ => id
  | customName hname => exact @pointsInto_of_misnamed lead after [] .custom content hname
  | exportName _ hname => exact pointsInto_of_misnamed hname
  | exportKind _ _ _ => exact pointsInto_of_byte rfl rfl fun _ _ => id
  | entryTooLong _ hnum _ => exact pointsInto_of_spells rfl rfl hnum fun _ _ => id
  | @entry front num entry rest entries n e hfront hnum hlen herror hentry =>
    -- places in the entry count from its start, and the entry starts behind `front ++ num`
    cases hentry with
    | ending =>
      refine .inr ⟨rfl, _, .intro rfl hfront hnum hlen herror, ?_⟩
      simp only [List.length_append]
      omega
    | @locals first declared back m runs _ hdeclared _ _ =>
      refine @pointsInto_of_spells lead after _ (front ++ num ++ first) (back ++ rest) declared _ _ _ m (by simp) ?_
        hdeclared fun _ _ hm => ⟨m, hm⟩
      simp only [List.length_append]
      omega
    | @valueType first declared back m runs code _ _ _ =>
      refine @pointsInto_of_byte lead after _ (front ++ num ++ (first ++ declared)) (back ++ rest) _ _ _ code
        (by simp) ?_ fun _ _ => id
      simp only [List.length_append]
      omega

/-! ## Frames -/

/-- The bytes behind the number of a frame end inside the size of its content, or
inside the content. -/
def CutShort (tail : List UInt8) : Prop :=
  Leb128.read tail = none ∨
  ∃ size n content, tail = size ++ content ∧ Spells size n ∧ content.length < n.toNat

/-- A frame that fails is cut short, or its content is refused. -/
theorem cutShort_or_refused_of_frame? {id : UInt8} {tail : List UInt8} {pos : Nat} {e : DecodeError} {r : Reader}
    (h : Read.frame? (.clean (id :: tail) pos) = .error e r) :
    CutShort tail ∧ e = .truncated (pos + (id :: tail).length) ∨
    ∃ size n content after e', tail = size ++ (content ++ after) ∧ Spells size n ∧
      n.toNat = content.length ∧ Section.read id content = .error e' ∧
      e = e'.rebase (pos + (id :: size).length) := by
  rcases exists_content tail with hnone | ⟨size, n, content, hsize, hshort, rfl⟩ |
    ⟨size, n, content, after, hsize, hlen, rfl⟩
  · obtain ⟨_, hframe⟩ := @Read.frame?_of_unfinished none pos tail hnone id
    cases hframe.symm.trans h
    exact .inl ⟨.inl hnone, rfl⟩
  · obtain ⟨_, hframe⟩ := @Read.frame?_of_short none pos size content n hsize hshort id
    cases hframe.symm.trans h
    exact .inl ⟨.inr ⟨size, n, content, rfl, hsize, hshort⟩, rfl⟩
  · have hframe := @Read.frame?_of_content none pos size content n hsize hlen id after
    cases hread : Section.read id content with
    | ok read =>
      rw [hread] at hframe
      cases hframe.symm.trans h
    | error e' =>
      rw [hread] at hframe
      cases hframe.symm.trans h
      exact .inr ⟨size, n, content, after, e', List.append_assoc .., hsize, hlen, hread, rfl⟩

/-- A scan that stops has passed over frames, and then the next frame fails. -/
theorem exists_failing_frame {bytes : List UInt8} {pos : Nat} {done : Array Framed} {e : DecodeError}
    (h : (scanFrames (.clean bytes pos) done).outcome = .error e) :
    ∃ front back frames r, bytes = front ++ back ∧ FramesAt pos front frames ∧
      Read.frame? (.clean back (pos + front.length)) = .error e r := by
  generalize hr : Reader.clean bytes pos = r at h
  induction r, done using scanFrames.induct generalizing bytes pos with
  | case1 r done f r' hf ih =>
    subst hr
    obtain ⟨first, rest, rfl, hframe, rfl⟩ := exists_frameAt_of_frame? hf
    rw [scanFrames_of_frame hf] at h
    obtain ⟨front, back, frames, r, rfl, hframes, herror⟩ := ih rfl h
    refine ⟨first ++ front, back, f :: frames, r, (List.append_assoc ..).symm, .cons hframe hframes, ?_⟩
    rwa [List.length_append, ← Nat.add_assoc]
  | case2 r done r' hf =>
    subst hr
    cases Read.eq_nil_of_frame? hf
    rw [scanFrames_nil] at h
    cases h
  | case3 r done e' r' hf =>
    subst hr
    rw [scanFrames_of_error hf] at h
    cases h
    exact ⟨[], bytes, [], r', rfl, .nil, hf⟩

theorem FramesAt.outcome_eq {pos : Nat} {bytes : List UInt8} {frames : List Framed}
    (h : FramesAt pos bytes frames) (done : Array Framed) :
    (scanFrames (.clean bytes pos) done).outcome = .ok (pos + bytes.length) := by
  induction h generalizing done with
  | nil =>
    rw [scanFrames_nil]
    rfl
  | @cons pos front back f frames hf _ ih =>
    have hframe : Read.frame? (.clean (front ++ back) pos) = .ok (some f) (.clean back (pos + front.length)) :=
      hf.frame?_append back none
    rw [scanFrames_of_frame hframe, List.length_append, ← Nat.add_assoc]
    exact ih (done.push f)

/-- Frames are a module behind the opening bytes. -/
theorem FramesAt.exists_decode {bytes : List UInt8} {frames : List Framed} (h : FramesAt 8 bytes frames) :
    ∃ m, decode (opening ++ bytes) = .ok m := by
  rw [decode_opening_append]
  exact ⟨_, Scan.module?_eq_ok_iff.2 ⟨⟨_, h.outcome_eq #[]⟩, rfl⟩⟩

/-! ## Decoding -/

/-- Behind the opening bytes, decoding fails for one frame, in front of which stands a
module. If that frame is cut short, the input ends too early. Otherwise its content is
refused, and the failure points into the content. -/
theorem decode_error_place {bytes : List UInt8} {e : DecodeError} (hopening : opening <+: bytes)
    (h : decode bytes = .error e) :
    ∃ before id tail m, bytes = before ++ id :: tail ∧ decode before = .ok m ∧
      (CutShort tail ∧ e = .truncated bytes.length ∨
        ∃ size n content after e', tail = size ++ (content ++ after) ∧ Spells size n ∧
          n.toNat = content.length ∧ Section.read id content = .error e' ∧
          Refusal (SectionKind.ofId id) content e' ∧ e = e'.rebase (before ++ id :: size).length ∧
          e.PointsInto bytes (SectionKind.ofId id) (before ++ id :: size).length content) := by
  obtain ⟨rest, rfl⟩ := hopening
  rw [decode_opening_append, Scan.module?_eq_error_iff] at h
  obtain ⟨front, back, frames, r, rfl, hframes, herror⟩ := exists_failing_frame h
  obtain ⟨m, hm⟩ := hframes.exists_decode
  have hpos : 8 + front.length = (opening ++ front).length := by
    rw [List.length_append]
    rfl
  rw [hpos] at herror
  rw [← List.append_assoc]
  generalize opening ++ front = before at hm herror ⊢
  cases back with
  | nil => cases herror
  | cons id tail =>
    refine ⟨before, id, tail, m, rfl, hm, ?_⟩
    rcases cutShort_or_refused_of_frame? herror with ⟨hcut, rfl⟩ |
      ⟨size, n, content, after, e', rfl, hsize, hlen, hread, rfl⟩
    · rw [List.length_append]
      exact .inl ⟨hcut, rfl⟩
    · have hrefusal := Section.refusal_of_read hread
      have hpoints := hrefusal.pointsInto (before ++ id :: size) after
      rw [← List.length_append]
      refine .inr ⟨size, n, content, after, e', rfl, hsize, hlen, hread, hrefusal, rfl, ?_⟩
      rwa [List.append_assoc, List.cons_append] at hpoints

/-- Two functions, of which the second declares more locals than there may be: the place
counts from the start of its entry, then of the content, then of the input. -/
theorem decode_error_place_locals :
    let bytes := opening ++ [10, 10, 2, 2, 0, 0x0b, 5, 1, 0xd1, 0x86, 0x03, 0x7f]
    let e := DecodeError.invalidSection .code 16 .tooManyLocals
    decode bytes = .error e ∧ ∃ before id tail m size content, bytes = before ++ id :: tail ∧
      decode before = .ok m ∧ e.PointsInto bytes (SectionKind.ofId id) (before ++ id :: size).length content := by
  intro bytes e
  have herror : decode bytes = .error e := by cbv
  obtain ⟨before, id, tail, m, hbytes, hm, ⟨-, hcut⟩ | ⟨size, n, content, after, e', -, -, -, -, -, -, hpoints⟩⟩ :=
    decode_error_place ⟨_, rfl⟩ herror
  · exact DecodeError.noConfusion hcut
  · exact ⟨herror, before, id, tail, m, size, content, hbytes, hm, hpoints⟩

end StackVm
