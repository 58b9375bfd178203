import StackVm.Proofs.Binary.Decoding
import StackVm.Proofs.Binary.Encoding

/-!
# Round trips

Decoding and encoding fit together in two ways:

* `decode_encode_of_decode`: what was decoded can be encoded and decoded again,
  with the same sections, and encoding never makes it longer;
* `decode_encode_ofSections_iff`: sections made by hand survive encoding and
  decoding if and only if each of them is well formed.
-/

namespace StackVm

/-- A module of well-formed sections is encoded as a form of them. -/
theorem moduleForm_encode {m : Module}
    (h : ∀ s ∈ m.sections.toList, s.WellFormed ∧ s.content.length < 2 ^ 32) :
    ModuleForm m.encode m.sections.toList :=
  .intro (sequenceForm_flatMap fun s hs => frameForm_encode (h s hs).1 (h s hs).2)

theorem ModuleForm.wellFormed {bytes : List UInt8} {sections : List Section}
    (h : ModuleForm bytes sections) : ∀ s ∈ sections, s.WellFormed ∧ s.content.length < 2 ^ 32 := by
  obtain ⟨hframes⟩ := h
  exact hframes.forall_mem fun _ _ => FrameForm.wellFormed

/-- No form of the sections of a module is shorter than its encoding. -/
theorem ModuleForm.length_encode_le {bytes : List UInt8} {m : Module}
    (h : ModuleForm bytes m.sections.toList) : m.encode.length ≤ bytes.length := by
  obtain ⟨frames, hbytes, hframes⟩ : ∃ frames,
      bytes = [0x00, 0x61, 0x73, 0x6d, 0x01, 0x00, 0x00, 0x00] ++ frames ∧
        SequenceForm FrameForm frames m.sections.toList := by
    generalize m.sections.toList = sections at h
    obtain ⟨hframes⟩ := h
    exact ⟨_, rfl, hframes⟩
  have hle := hframes.length_flatMap_le fun _ _ => FrameForm.length_encode_le
  have hlen : bytes.length = 8 + frames.length := by rw [hbytes, List.length_append]; rfl
  rw [hlen, Module.encode, List.length_append, List.length_append]
  show 4 + 4 + _ ≤ 8 + _
  omega

/-- What was decoded, whatever spellings it came in, is encoded in no more
bytes, and decoding that gives the same sections again. -/
theorem decode_encode_of_decode {bytes : List UInt8} {m : Module} (h : decode bytes = .ok m) :
    (∃ m', decode m.encode = .ok m' ∧ m'.sections = m.sections) ∧ m.encode.length ≤ bytes.length := by
  have hform := moduleForm_of_decode h
  obtain ⟨m', hm', hsections⟩ := exists_decode_of_moduleForm (moduleForm_encode hform.wellFormed)
  exact ⟨⟨m', hm', Array.toList_inj.1 hsections⟩, hform.length_encode_le⟩

/-- A memory whose minimum loses its high bits, behind an overlong count and
with a flag of 7, in front of trailing bytes; then three locals in three
declarations, one of them of none. -/
theorem decode_encode_of_decode_overlong :
    ∃ m, decode [0x00, 0x61, 0x73, 0x6d, 0x01, 0x00, 0x00, 0x00,
        5, 0x8b, 0x80, 0x00, 0x81, 0x00, 7, 0x80, 0x80, 0x80, 0x80, 0x10, 2, 0xff, 0xff,
        10, 10, 1, 8, 3, 0, 0x7e, 1, 0x7f, 2, 0x7f, 0x0b] = .ok m ∧
      m.sections = #[.memories [⟨0, some 2⟩], .code [⟨[.i32, .i32, .i32], [0x0b]⟩]] ∧
      (∃ m', decode m.encode = .ok m' ∧ m'.sections = m.sections) ∧ m.encode.length ≤ 35 := by
  have hdecode : (decode [0x00, 0x61, 0x73, 0x6d, 0x01, 0x00, 0x00, 0x00,
        5, 0x8b, 0x80, 0x00, 0x81, 0x00, 7, 0x80, 0x80, 0x80, 0x80, 0x10, 2, 0xff, 0xff,
        10, 10, 1, 8, 3, 0, 0x7e, 1, 0x7f, 2, 0x7f, 0x0b]).toOption.map Module.sections =
      some #[.memories [⟨0, some 2⟩], .code [⟨[.i32, .i32, .i32], [0x0b]⟩]] := by
    decide +kernel
  match hm : decode _, hdecode with
  | .ok m, hdecode =>
    exact ⟨m, rfl, Option.some.inj hdecode, decode_encode_of_decode hm⟩

/-- Sections survive encoding and decoding if and only if they are well
formed. -/
theorem decode_encode_ofSections_iff (name : String) (sections : List Section)
    (hsize : ∀ s ∈ sections, s.content.length < 2 ^ 32) :
    (∃ m, decode (Module.ofSections name sections).encode = .ok m ∧ m.sections.toList = sections) ↔
      ∀ s ∈ sections, s.WellFormed := by
  constructor
  · rintro ⟨m, hm, hsections⟩ s hs
    rw [← hsections] at hs
    exact ((moduleForm_of_decode hm).wellFormed s hs).1
  · intro h
    have hof := toList_sections_ofSections name sections
    have hform : ModuleForm (Module.ofSections name sections).encode sections := by
      have hencode := @moduleForm_encode (Module.ofSections name sections)
      rw [hof] at hencode
      exact hencode fun s hs => ⟨h s hs, hsize s hs⟩
    exact exists_decode_of_moduleForm hform

/-- A custom section with bytes behind its name, an export, a function with
two equal locals, and a section of an unknown kind. -/
theorem decode_encode_ofSections_mixed :
    let sections : List Section := [.custom "a" [1, 0x61, 0xff], .exports [⟨"f", .func, 0⟩],
      .code [⟨[.i32, .i32], [0x0b]⟩], .unknown 2 [9]]
    (∀ s ∈ sections, s.content.length < 2 ^ 32) ∧ (∀ s ∈ sections, s.WellFormed) ∧
      ∃ m, decode (Module.ofSections "m" sections).encode = .ok m ∧ m.sections.toList = sections := by
  intro sections
  have hsize : ∀ s ∈ sections, s.content.length < 2 ^ 32 := by decide +kernel
  have hform : NameForm (Bytes.ofName "a") "a" := nameForm_ofName (by decide)
  have hname : Read.name.onBytes [1, 0x61, 0xff] = .ok "a" :=
    onBytes_name_eq_ok_iff.2 ⟨Bytes.ofName "a", [0xff], by decide +kernel, hform⟩
  have hwell : ∀ s ∈ sections, s.WellFormed := by
    simp only [sections, List.forall_mem_cons, Section.WellFormed]
    refine ⟨hname, by decide, ⟨by decide, by decide +kernel⟩, by decide, nofun⟩
  exact ⟨hsize, hwell, (decode_encode_ofSections_iff "m" sections hsize).2 hwell⟩

end StackVm
