import StackVm.Binary.Stream
import StackVm.Binary.Writer
import StackVm.Proofs.Binary.Contents

/-!
# Decoding accepts the grammar

`decode` succeeds just on the byte strings of the grammar, and returns the
sections that they are forms of (`decode_sections_iff_moduleForm`). The proof goes frame
by frame:

* `Read.frameForm_of_frame?`, `Read.exists_frame?_of_frameForm`: what is read as a
  frame, and what is not missed;
* `scanFrames_of_sequenceForm`, `sequenceForm_of_scanFrames`: the same for all
  frames up to the end.
-/

namespace StackVm

namespace Read

/-! ## Opening bytes -/

theorem toNat_littleEndian (b₀ b₁ b₂ b₃ : UInt8) : (littleEndian b₀ b₁ b₂ b₃).toNat =
    b₀.toNat + 2 ^ 8 * b₁.toNat + 2 ^ 16 * b₂.toNat + 2 ^ 24 * b₃.toNat := by
  have h₀ := b₀.toNat_lt; have h₁ := b₁.toNat_lt; have h₂ := b₂.toNat_lt; have h₃ := b₃.toNat_lt
  have hshift : ∀ (b : UInt8) (k : Nat), k < 32 → b.toNat < 2 ^ 8 → 2 ^ k * b.toNat < 2 ^ 32 →
      (b.toUInt32 <<< UInt32.ofNat k).toNat = 2 ^ k * b.toNat := by
    intro b k hk hb hlt
    rw [UInt32.toNat_shiftLeft, UInt32.toNat_ofNat', Nat.mod_eq_of_lt (a := k) (by omega),
      Nat.mod_eq_of_lt hk, UInt8.toNat_toUInt32, Nat.shiftLeft_eq, Nat.mul_comm, Nat.mod_eq_of_lt hlt]
  have e₁ := hshift b₁ 8 (by omega) h₁ (by omega)
  have e₂ := hshift b₂ 16 (by omega) h₂ (by omega)
  have e₃ := hshift b₃ 24 (by omega) h₃ (by omega)
  -- each shifted byte starts where the ones below it end, so joining is adding
  have hor : ∀ a k b : Nat, a < 2 ^ k → a ||| 2 ^ k * b = a + 2 ^ k * b := by
    intro a k b ha
    rw [Nat.or_comm, ← Nat.two_pow_add_eq_or_of_lt ha, Nat.add_comm]
  show (b₀.toUInt32 ||| b₁.toUInt32 <<< UInt32.ofNat 8 ||| b₂.toUInt32 <<< UInt32.ofNat 16 |||
    b₃.toUInt32 <<< UInt32.ofNat 24).toNat = _
  rw [UInt32.toNat_or, UInt32.toNat_or, UInt32.toNat_or, e₁, e₂, e₃, UInt8.toNat_toUInt32,
    hor _ 8 _ h₀, hor _ 16 _ (by omega), hor _ 24 _ (by omega)]

theorem littleEndian_eq_iff {b₀ b₁ b₂ b₃ : UInt8} {v : UInt32} :
    littleEndian b₀ b₁ b₂ b₃ = v ↔ [b₀, b₁, b₂, b₃] = Bytes.ofWord v := by
  have h₀ := b₀.toNat_lt; have h₁ := b₁.toNat_lt; have h₂ := b₂.toNat_lt; have h₃ := b₃.toNat_lt
  have hv := v.toNat_lt
  have hbyte : ∀ k : Nat, k < 32 → (v >>> UInt32.ofNat k).toUInt8.toNat = v.toNat / 2 ^ k % 2 ^ 8 := by
    intro k hk
    rw [UInt32.toNat_toUInt8, UInt32.toNat_shiftRight, UInt32.toNat_ofNat',
      Nat.mod_eq_of_lt (a := k) (by omega), Nat.mod_eq_of_lt hk, Nat.shiftRight_eq_div_pow]
  have e₁ : (v >>> 8).toUInt8.toNat = v.toNat / 2 ^ 8 % 2 ^ 8 := hbyte 8 (by omega)
  have e₂ : (v >>> 16).toUInt8.toNat = v.toNat / 2 ^ 16 % 2 ^ 8 := hbyte 16 (by omega)
  have e₃ : (v >>> 24).toUInt8.toNat = v.toNat / 2 ^ 24 % 2 ^ 8 := hbyte 24 (by omega)
  rw [← UInt32.toNat_inj, toNat_littleEndian, Bytes.ofWord]
  simp only [List.cons.injEq, and_true, ← UInt8.toNat_inj, e₁, e₂, e₃, UInt32.toNat_toUInt8]
  omega

theorem reads_word : Reads word fun bytes v => bytes = Bytes.ofWord v := by
  intro bytes pos v r
  constructor
  · intro h
    match bytes with
    | b₀ :: b₁ :: b₂ :: b₃ :: rest =>
      cases h
      exact ⟨[b₀, b₁, b₂, b₃], rest, rfl, littleEndian_eq_iff.1 rfl, rfl⟩
    | [] | [_] | [_, _] | [_, _, _] => cases h
  · rintro ⟨_, rest, rfl, rfl, rfl⟩
    have h := littleEndian_eq_iff.2 (rfl : Bytes.ofWord v = Bytes.ofWord v)
    simp only [Bytes.ofWord, List.cons_append, List.nil_append, word, Reader.clean_bytes, h]
    rfl

theorem Reads.orFault {α : Type} {action : Read α} {form : Form α} (h : Reads action form)
    (fault : ModuleFault) : Reads (action.orFault fault) form := by
  intro bytes pos a r
  rw [← h bytes pos a r, Read.orFault]
  cases action (.clean bytes pos) with
  | ok b r' => rfl
  | error e r' => simp

theorem reads_preamble : Reads preamble fun bytes _ =>
    bytes = [0x00, 0x61, 0x73, 0x6d, 0x01, 0x00, 0x00, 0x00] := by
  have h : Reads preamble _ :=
    (reads_word.orFault .missingMagic).bind fun found => .guarded (fun _ =>
      (reads_word.orFault .missingVersion).bind fun found => .guarded (fun _ => reads_pure ())
        fun _ _ _ => nofun) fun _ _ _ => nofun
  refine h.congr fun bytes _ => ?_
  constructor
  · rintro ⟨found, _, _, rfl, rfl, hmagic, found', _, _, rfl, rfl, hversion, rfl, -⟩
    rw [Decidable.not_not] at hmagic hversion
    rw [hmagic, hversion]
    decide
  · rintro rfl
    exact ⟨magic, Bytes.ofWord magic, Bytes.ofWord version, by decide, rfl, by simp, version, _, [],
      (List.append_nil _).symm, rfl, by simp, rfl, rfl⟩

/-! ## Frames -/

theorem frameForm_of_frameOf {start pos : Nat} {id : UInt8} {bytes : List UInt8} {f : Framed} {r : Reader}
    (h : frameOf start id (.clean bytes pos) = .ok f r) :
    ∃ front rest, bytes = front ++ rest ∧ FrameForm (id :: front) f.content ∧
      f.span = ⟨start, pos + front.length⟩ ∧ r = .clean rest (pos + front.length) := by
  simp only [frameOf, bind_eq_ok_iff] at h
  obtain ⟨n, r₁, hsize, base, r₂, hbase, _, r₃, htake, ⟨s, trailing⟩, r₄, hpart, stop, r₅, hstop, hf⟩ := h
  obtain ⟨front, _, rfl, hn, rfl⟩ := (reads_unsigned ..).1 hsize
  cases hbase
  obtain ⟨content, _, rfl, ⟨rfl, hlen⟩, rfl⟩ := (reads_take ..).1 htake
  obtain ⟨_, rest, rfl, ⟨rfl, hs⟩, rfl⟩ := (reads_ofPart ..).1 hpart
  cases hstop
  cases hf
  have hpos : pos + front.length + content.length = pos + (front ++ content).length := by
    rw [List.length_append, Nat.add_assoc]
  refine ⟨front ++ content, rest, (List.append_assoc ..).symm, ?_, ?_, ?_⟩
  · exact .intro (.intro hn hlen.symm (Section.contentForm_of_read hs))
  · rw [← hpos]
    rfl
  · rw [← hpos]
    rfl

theorem exists_frameOf_of_frameForm {id : UInt8} {front : List UInt8} {s : Section}
    (h : FrameForm (id :: front) s) (start pos : Nat) (rest : List UInt8) :
    ∃ f, frameOf start id (.clean (front ++ rest) pos) = .ok f (.clean rest (pos + front.length)) ∧
      f.content = s ∧ f.span = ⟨start, pos + front.length⟩ := by
  obtain ⟨@⟨size, content, n, _, hn, hlen, hs⟩⟩ := h
  obtain ⟨trailing, hread⟩ := Section.exists_read_of_contentForm hs
  have hpos : pos + size.length + content.length = pos + (size ++ content).length := by
    rw [List.length_append, Nat.add_assoc]
  have hsize := (reads_unsigned (size ++ (content ++ rest)) pos n _).2 ⟨size, _, rfl, hn, rfl⟩
  have htake := (reads_take n.toNat (content ++ rest) (pos + size.length) content _).2
    ⟨content, rest, rfl, ⟨rfl, hlen.symm⟩, rfl⟩
  refine ⟨{ id, size := n, span := ⟨start, pos + (size ++ content).length⟩, content := s, trailing }, ?_, rfl,
    rfl⟩
  rw [List.append_assoc, ← hpos, frameOf]
  simp only [bind_eq_ok_iff]
  exact ⟨n, _, hsize, _, _, rfl, content, _, htake, (s, trailing), _, by rw [hread]; rfl, _, _, rfl, rfl⟩

/-- What is read as a frame is one. -/
theorem frameForm_of_frame? {pos : Nat} {bytes : List UInt8} {f : Framed} {r : Reader}
    (h : frame? (.clean bytes pos) = .ok (some f) r) :
    ∃ front rest, bytes = front ++ rest ∧ FrameForm front f.content ∧
      f.span = ⟨pos, pos + front.length⟩ ∧ r = .clean rest (pos + front.length) := by
  cases bytes with
  | nil => cases h
  | cons id bytes =>
    have h' : (frameOf pos id >>= fun f => pure (some f)) (.clean bytes (pos + 1)) = .ok (some f) r := h
    obtain ⟨_, _, hf, hr⟩ := bind_eq_ok_iff.1 h'
    cases hr
    obtain ⟨front, rest, rfl, hform, hspan, rfl⟩ := frameForm_of_frameOf hf
    refine ⟨id :: front, rest, rfl, hform, ?_, ?_⟩
    · rw [hspan, List.length_cons, Nat.add_assoc, Nat.add_comm 1]
    · rw [List.length_cons, Nat.add_assoc, Nat.add_comm 1]

/-- Every frame is read. -/
theorem exists_frame?_of_frameForm {front : List UInt8} {s : Section} (h : FrameForm front s) (pos : Nat)
    (rest : List UInt8) :
    ∃ f, frame? (.clean (front ++ rest) pos) = .ok (some f) (.clean rest (pos + front.length)) ∧
      f.content = s ∧ f.span = ⟨pos, pos + front.length⟩ := by
  obtain @⟨id, front, _, hsized⟩ := h
  obtain ⟨f, hf, hcontent, hspan⟩ := exists_frameOf_of_frameForm (.intro hsized) pos (pos + 1) rest
  have hpos : pos + 1 + front.length = pos + (id :: front).length := by
    rw [List.length_cons, Nat.add_assoc, Nat.add_comm 1]
  rw [hpos] at hf hspan
  refine ⟨f, ?_, hcontent, hspan⟩
  show (frameOf pos id >>= fun f => pure (some f)) (.clean (front ++ rest) (pos + 1)) = _
  exact bind_eq_ok_iff.2 ⟨f, _, hf, rfl⟩

theorem eq_nil_of_frame? {pos : Nat} {bytes : List UInt8} {r : Reader}
    (h : frame? (.clean bytes pos) = .ok none r) : bytes = [] := by
  cases bytes with
  | nil => rfl
  | cons id bytes =>
    have h' : (frameOf pos id >>= fun f => pure (some f)) (.clean bytes (pos + 1)) = .ok none r := h
    obtain ⟨_, _, -, hr⟩ := bind_eq_ok_iff.1 h'
    cases hr

end Read

/-! ## Scanning -/

/-- The sections of the frames that were read. -/
def Scan.contents (s : Scan) : List Section :=
  s.frames.toList.map Framed.content

/-- A scan that reaches the end has met frames only. -/
theorem sequenceForm_of_scanFrames {r : Reader} {done : Array Framed} {n pos : Nat} {bytes : List UInt8}
    (hr : r = .clean bytes pos) (h : (scanFrames r done).outcome = .ok n) :
    ∃ sections, (scanFrames r done).contents = done.toList.map Framed.content ++ sections ∧
      SequenceForm FrameForm bytes sections := by
  induction r, done using scanFrames.induct generalizing bytes pos with
  | case1 r done f r' hf ih =>
    subst hr
    obtain ⟨front, rest, rfl, hform, -, rfl⟩ := Read.frameForm_of_frame? hf
    have hscan : scanFrames (.clean (front ++ rest) pos) done =
        scanFrames (.clean rest (pos + front.length)) (done.push f) := by
      rw [scanFrames, hf]
    rw [hscan] at h ⊢
    obtain ⟨sections, hsections, hrest⟩ := ih rfl h
    refine ⟨f.content :: sections, ?_, .cons hform hrest⟩
    rw [hsections, Array.toList_push, List.map_append, List.append_assoc]
    rfl
  | case2 r done r' hf =>
    subst hr
    cases Read.eq_nil_of_frame? hf
    have hscan : scanFrames (.clean [] pos) done = { frames := done, outcome := .ok r'.pos } := by
      rw [scanFrames, hf]
    rw [hscan]
    exact ⟨[], (List.append_nil _).symm, .nil⟩
  | case3 r done e r' hf =>
    rw [scanFrames, hf] at h
    cases h

/-- A scan of frames reaches the end, and misses none. -/
theorem scanFrames_of_sequenceForm {bytes : List UInt8} {sections : List Section}
    (h : SequenceForm FrameForm bytes sections) (pos : Nat) (done : Array Framed) :
    (scanFrames (.clean bytes pos) done).outcome = .ok (pos + bytes.length) ∧
      (scanFrames (.clean bytes pos) done).contents = done.toList.map Framed.content ++ sections := by
  induction h generalizing pos done with
  | nil =>
    have hscan : scanFrames (.clean [] pos) done = { frames := done, outcome := .ok pos } := by
      rw [scanFrames]
      rfl
    rw [hscan]
    exact ⟨rfl, (List.append_nil _).symm⟩
  | @cons front back s sections hform _ ih =>
    obtain ⟨f, hf, rfl, -⟩ := Read.exists_frame?_of_frameForm hform pos back
    have hscan : scanFrames (.clean (front ++ back) pos) done =
        scanFrames (.clean back (pos + front.length)) (done.push f) := by
      rw [scanFrames, hf]
    obtain ⟨houtcome, hcontents⟩ := ih (pos + front.length) (done.push f)
    rw [hscan, houtcome, hcontents, List.length_append, Nat.add_assoc, Array.toList_push, List.map_append,
      List.append_assoc]
    exact ⟨rfl, rfl⟩

/-! ## Modules -/

/-- Pushing sections one after another appends them. -/
theorem toList_sections_foldl_push {α : Type} (content : α → Section) (span : α → Span) (entries : List α)
    (m : Module) : (entries.foldl (fun m a => m.push (content a) (span a)) m).sections.toList =
      m.sections.toList ++ entries.map content := by
  induction entries generalizing m with
  | nil => exact (List.append_nil _).symm
  | cons a entries ih =>
    rw [List.foldl_cons, ih, Module.push, Array.toList_push, List.append_assoc]
    rfl

/-- Beside each section stands its range. -/
theorem toList_spans_foldl_push {α : Type} (content : α → Section) (span : α → Span) (entries : List α)
    (m : Module) : (entries.foldl (fun m a => m.push (content a) (span a)) m).spans.toList =
      m.spans.toList ++ entries.map span := by
  induction entries generalizing m with
  | nil => exact (List.append_nil _).symm
  | cons a entries ih =>
    rw [List.foldl_cons, ih, Module.push, Array.toList_push, List.append_assoc]
    rfl

theorem toList_sections_toModule (s : Scan) (name : String) :
    (s.toModule name).sections.toList = s.contents := by
  rw [Scan.toModule, ← Array.foldl_toList]
  exact toList_sections_foldl_push Framed.content Framed.span _ _

theorem toList_spans_toModule (s : Scan) (name : String) :
    (s.toModule name).spans.toList = s.frames.toList.map Framed.span := by
  rw [Scan.toModule, ← Array.foldl_toList]
  exact toList_spans_foldl_push Framed.content Framed.span _ _

theorem toList_sections_ofSections (name : String) (sections : List Section) :
    (Module.ofSections name sections).sections.toList = sections := by
  have h := toList_sections_foldl_push id (fun _ => ⟨0, 0⟩) sections (.empty name)
  rwa [List.map_id] at h

namespace Scan

theorem module?_eq_ok_iff {s : Scan} {name : String} {m : Module} :
    s.module? name = .ok m ↔ (∃ length, s.outcome = .ok length) ∧ m = s.toModule name := by
  rw [module?]
  cases s.outcome with
  | ok length => simp [Except.map, eq_comm]
  | error e => simp [Except.map]

theorem module?_eq_error_iff {s : Scan} {name : String} {e : DecodeError} :
    s.module? name = .error e ↔ s.outcome = .error e := by
  rw [module?]
  cases s.outcome with
  | ok length => simp [Except.map]
  | error e => simp [Except.map]

end Scan

/-- What is decoded is a module. -/
theorem moduleForm_of_decode {bytes : List UInt8} {m : Module} (h : decode bytes = .ok m) :
    ModuleForm bytes m.sections.toList := by
  obtain ⟨⟨n, hout⟩, rfl⟩ := Scan.module?_eq_ok_iff.1 (h : (scan (.ofBytes bytes)).module? "module" = .ok m)
  rw [toList_sections_toModule]
  rw [scan] at hout ⊢
  match hpre : Read.preamble (.ofSource (.ofBytes bytes)) with
  | .error e r => rw [hpre] at hout; cases hout
  | .ok () r =>
    rw [hpre] at hout
    obtain ⟨front, rest, rfl, rfl, rfl⟩ := (Read.reads_preamble bytes 0 () r).1 hpre
    obtain ⟨sections, hsections, hframes⟩ := sequenceForm_of_scanFrames rfl hout
    have hcontents : (scanFrames (.clean rest (0 + 8)) #[]).contents = sections := hsections
    show ModuleForm _ (scanFrames (.clean rest (0 + 8)) #[]).contents
    rw [hcontents]
    exact .intro hframes

/-- Every module is decoded. -/
theorem exists_decode_of_moduleForm {bytes : List UInt8} {sections : List Section}
    (h : ModuleForm bytes sections) : ∃ m, decode bytes = .ok m ∧ m.sections.toList = sections := by
  obtain @⟨frames, _, hframes⟩ := h
  obtain ⟨houtcome, hcontents⟩ := scanFrames_of_sequenceForm hframes (0 + 8) #[]
  have hpre : Read.preamble
      (.ofSource (.ofBytes ([0x00, 0x61, 0x73, 0x6d, 0x01, 0x00, 0x00, 0x00] ++ frames))) =
      .ok () (.clean frames (0 + 8)) :=
    (Read.reads_preamble _ 0 () _).2 ⟨_, frames, rfl, rfl, rfl⟩
  have hscan : scan (.ofBytes ([0x00, 0x61, 0x73, 0x6d, 0x01, 0x00, 0x00, 0x00] ++ frames)) =
      scanFrames (.clean frames (0 + 8)) #[] := by
    rw [scan, hpre]
  refine ⟨(scanFrames (.clean frames (0 + 8)) #[]).toModule "module", ?_, ?_⟩
  · show (scan _).module? "module" = _
    rw [hscan, Scan.module?, houtcome]
    rfl
  · rw [toList_sections_toModule, hcontents]
    rfl

/-- `decode` accepts exactly the grammar: it succeeds with some sections just
on the byte strings that are forms of them. -/
theorem decode_sections_iff_moduleForm (bytes : List UInt8) (sections : List Section) :
    (∃ m, decode bytes = .ok m ∧ m.sections.toList = sections) ↔ ModuleForm bytes sections := by
  constructor
  · rintro ⟨m, hm, rfl⟩
    exact moduleForm_of_decode hm
  · exact exists_decode_of_moduleForm

end StackVm
