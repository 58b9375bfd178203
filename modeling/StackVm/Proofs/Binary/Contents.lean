import StackVm.Binary.Content
import StackVm.Proofs.Binary.Reads

/-!
# Contents of sections are read by the grammar

Each reader of what a section holds reads just the forms of its results, from
names and limits (`reads_name`, `reads_limit`) up to code entries
(`reads_codeEntry`), and so `Section.read` accepts just the contents of the
grammar (`Section.contentForm_of_read`, `Section.exists_read_of_contentForm`).
-/

namespace StackVm

namespace Read

variable {α : Type}

/-! ## Vectors -/

theorem reads_count (kind : SectionKind) (what : Counted) :
    Reads (count kind what) fun bytes n => ¬ n.toNat > what.limit ∧ Leb128.Spells bytes n := by
  have h : Reads (count kind what) _ :=
    .position_bind fun offset => reads_unsigned.bind fun n =>
      .guarded (fun _ => reads_pure n) fun _ _ _ => nofun
  refine h.congr fun bytes m => ?_
  constructor
  · rintro ⟨n, front, _, rfl, hn, hle, rfl, rfl⟩
    exact ⟨hle, by rwa [List.append_nil]⟩
  · rintro ⟨hle, hm⟩
    exact ⟨m, bytes, [], (List.append_nil _).symm, hm, hle, rfl, rfl⟩

/-- The elements of a vector, behind their count. -/
theorem reads_elements {element : Read α} {form : Form α} (h : Reads element form) (n : UInt32) :
    Reads (repeated element n.toNat #[] >>= fun all => pure all.toList)
      fun bytes entries => n.toNat = entries.length ∧ SequenceForm form bytes entries := by
  refine ((reads_repeated h n.toNat #[]).bind fun all => reads_pure all.toList).congr fun bytes entries => ?_
  constructor
  · rintro ⟨all, front, _, rfl, ⟨entries, hall, hlen, hform⟩, rfl, rfl⟩
    have hentries : all.toList = entries := hall
    rw [hentries, List.append_nil]
    exact ⟨hlen.symm, hform⟩
  · rintro ⟨hlen, hform⟩
    exact ⟨entries.toArray, bytes, [], (List.append_nil _).symm, ⟨entries, rfl, hlen.symm, hform⟩, rfl, rfl⟩

/-- However much space is reserved, a vector is its count and then its elements. -/
theorem vector_allocate (size : Nat) (kind : SectionKind) (what : Counted) (element : Read α) :
    vector allocate size kind what element =
      count kind what >>= fun n => repeated element n.toNat #[] >>= fun all => pure all.toList := rfl

theorem reads_vector (size : Nat) (kind : SectionKind) (what : Counted) {element : Read α} {form : Form α}
    (h : Reads element form) : Reads (vector allocate size kind what element) (VectorForm what.limit form) := by
  rw [vector_allocate]
  refine ((reads_count kind what).bind fun n => reads_elements h n).congr fun bytes entries => ?_
  constructor
  · rintro ⟨n, front, back, rfl, ⟨hle, hn⟩, hlen, hback⟩
    exact ⟨.intro hn hlen hback, by omega⟩
  · rintro ⟨⟨hn, hlen, hback⟩, hle⟩
    exact ⟨_, _, _, rfl, ⟨by omega, hn⟩, hlen, hback⟩

theorem reads_sectionVector (kind : SectionKind) (what : Counted) {element : Nat → Read α} {form : Form α}
    (h : ∀ size, Reads (element size) form) :
    Reads (sectionVector allocate kind what element) (VectorForm what.limit form) :=
  .look_bind (fun _ => ⟨_, rfl⟩) fun size => reads_vector size kind what (h size)

/-! ## Definitions -/

theorem reads_name : Reads name NameForm := by
  have h : Reads name _ :=
    .position_bind fun start => reads_unsigned.bind fun n => (reads_take n.toNat).bind fun bytes =>
      reads_ofOption (Utf8.decode? bytes) fun _ _ _ => nofun
  refine h.congr fun bytes text => ?_
  constructor
  · rintro ⟨n, front, _, rfl, hn, content, _, _, rfl, ⟨rfl, hlen⟩, rfl, htext⟩
    rw [List.append_nil]
    exact .intro hn hlen.symm (Utf8.decode?_eq_some_iff.1 htext)
  · rintro ⟨hn, hlen, htext⟩
    exact ⟨_, _, _, rfl, hn, _, _, [], (List.append_nil _).symm, ⟨rfl, hlen.symm⟩, rfl,
      Utf8.decode?_eq_some_iff.2 htext⟩

theorem reads_valueType (kind : SectionKind) : Reads (valueType kind) ValueTypeForm := by
  have h : Reads (valueType kind) _ :=
    .position_bind fun offset => reads_byte.bind fun code =>
      reads_ofOption_reject (ValueType.ofByte? code)
  refine h.congr fun bytes t => ?_
  constructor
  · rintro ⟨code, _, _, rfl, rfl, rfl, ht⟩
    rw [ValueType.ofByte?_eq_some_iff.1 ht]
    rfl
  · rintro rfl
    exact ⟨t.byte, [t.byte], [], rfl, rfl, rfl, ValueType.ofByte?_byte t⟩

theorem reads_limit : Reads limit LimitForm := by
  have h : Reads limit _ :=
    reads_byte.bind fun flag => reads_unsigned.bind fun min =>
      .ite (reads_pure _) (reads_unsigned.bind fun max => reads_pure _)
  refine h.congr fun bytes l => ?_
  constructor
  · rintro ⟨flag, _, _, rfl, rfl, min, low, high, rfl, hmin, hmax⟩
    split at hmax
    · next hflag =>
      obtain ⟨rfl, rfl⟩ := hmax
      rw [hflag, List.append_nil]
      exact .unbounded hmin
    · next hflag =>
      obtain ⟨max, high, _, rfl, hmax, rfl, rfl⟩ := hmax
      rw [List.append_nil, List.singleton_append]
      exact .bounded hflag hmin hmax
  · intro hl
    cases hl with
    | @unbounded low min hmin =>
      exact ⟨0, [0], low, rfl, rfl, min, low, [], (List.append_nil _).symm, hmin, rfl, rfl⟩
    | @bounded flag low high min max hflag hmin hmax =>
      refine ⟨flag, [flag], low ++ high, rfl, rfl, min, low, high, rfl, hmin, ?_⟩
      show if flag = 0 then _ else _
      rw [if_neg hflag]
      exact ⟨max, high, [], (List.append_nil _).symm, hmax, rfl, rfl⟩

theorem reads_delimiter : Reads delimiter fun bytes _ => bytes = [0x60] := by
  have h : Reads delimiter _ :=
    .position_bind fun offset => reads_byte.bind fun found =>
      .guarded (fun _ => reads_pure ()) fun _ _ _ => nofun
  refine h.congr fun bytes _ => ?_
  constructor
  · rintro ⟨found, _, _, rfl, rfl, hfound, rfl, rfl⟩
    rw [Decidable.not_not] at hfound
    rw [hfound]
    rfl
  · rintro rfl
    exact ⟨0x60, [0x60], [], rfl, rfl, by decide, rfl, rfl⟩

theorem reads_functionType (size : Nat) : Reads (functionType allocate size) FunctionTypeForm := by
  have htypes := reads_vector size .types .valueTypes (reads_valueType .types)
  refine (reads_delimiter.bind fun _ => htypes.bind fun parameters => htypes.bind fun results =>
    reads_pure _).congr fun bytes t => ?_
  constructor
  · rintro ⟨_, _, _, rfl, rfl, parameters, front, _, rfl, hp, results, back, _, rfl, hr, rfl, rfl⟩
    rw [List.append_nil, List.singleton_append]
    exact .intro hp hr
  · rintro ⟨hp, hr⟩
    exact ⟨(), [0x60], _, rfl, rfl, _, _, _, rfl, hp, _, _, [], (List.append_nil _).symm, hr, rfl, rfl⟩

theorem reads_table : Reads table TableForm := by
  have h : Reads table _ :=
    .position_bind fun offset => reads_byte.bind fun code =>
      (reads_ofOption_reject (RefType.ofByte? code)).bind fun element =>
        reads_limit.bind fun l => reads_pure _
  refine h.congr fun bytes t => ?_
  constructor
  · rintro ⟨code, _, _, rfl, rfl, element, _, _, rfl, ⟨rfl, hcode⟩, l, back, _, rfl, hl, rfl, rfl⟩
    rw [RefType.ofByte?_eq_some_iff.1 hcode, List.append_nil]
    exact .intro hl
  · rintro ⟨hl⟩
    exact ⟨_, [_], _, rfl, rfl, _, [], _, rfl, ⟨rfl, RefType.ofByte?_byte _⟩, _, _, [],
      (List.append_nil _).symm, hl, rfl, rfl⟩

theorem reads_memories : Reads (memories allocate) (VectorForm Bounds.memories LimitForm) := by
  have h : Reads (memories allocate) _ :=
    .position_bind fun offset => reads_unsigned.bind fun n =>
      .guarded (fun _ => reads_elements reads_limit n) fun _ _ _ => nofun
  refine h.congr fun bytes entries => ?_
  constructor
  · rintro ⟨n, front, back, rfl, hn, hle, hlen, hback⟩
    exact ⟨.intro hn hlen hback, by omega⟩
  · rintro ⟨⟨hn, hlen, hback⟩, hle⟩
    exact ⟨_, _, _, rfl, hn, by omega, hlen, hback⟩

theorem reads_exportEntry : Reads exportEntry ExportForm := by
  have h : Reads exportEntry _ :=
    reads_name.bind fun name => .position_bind fun offset => reads_byte.bind fun code =>
      (reads_ofOption_reject (ExportKind.ofByte? code)).bind fun kind =>
        reads_unsigned.bind fun index => reads_pure _
  refine h.congr fun bytes e => ?_
  constructor
  · rintro ⟨name, front, _, rfl, hname, code, _, _, rfl, rfl, kind, _, _, rfl, ⟨rfl, hcode⟩, index, back, _,
      rfl, hindex, rfl, rfl⟩
    rw [ExportKind.ofByte?_eq_some_iff.1 hcode, List.append_nil]
    exact .intro hname hindex
  · rintro ⟨hname, hindex⟩
    exact ⟨_, _, _, rfl, hname, _, [_], _, rfl, rfl, _, [], _, rfl, ⟨rfl, ExportKind.ofByte?_byte _⟩, _, _, [],
      (List.append_nil _).symm, hindex, rfl, rfl⟩

/-! ## Function bodies -/

/-- Declarations behind `total` locals: the total is checked at every
declaration, so it is bounded at the end if it was at the start. -/
theorem reads_declarations (count total : Nat) (done : List ValueType) (htotal : total ≤ Bounds.locals) :
    Reads (declarations count total done) fun bytes locals =>
      ∃ runs, locals = done.reverse ++ expandRuns runs ∧ runs.length = count ∧
        total + (expandRuns runs).length ≤ Bounds.locals ∧ SequenceForm DeclarationForm bytes runs := by
  induction count generalizing total done with
  | zero =>
    refine (reads_pure _).congr fun bytes locals => ?_
    constructor
    · rintro ⟨rfl, rfl⟩
      exact ⟨[], (List.append_nil _).symm, rfl, htotal, .nil⟩
    · rintro ⟨runs, rfl, hlen, -, hruns⟩
      cases List.length_eq_zero_iff.1 hlen
      cases hruns
      exact ⟨rfl, List.append_nil _⟩
  | succ count ih =>
    have h : Reads (declarations (count + 1) total done) _ :=
      .position_bind fun offset => reads_unsigned.bind fun n =>
        .guarded (fun hn => (reads_valueType .code).bind fun t =>
          ih (total + n.toNat) (List.replicate n.toNat t ++ done) (by omega)) fun _ _ _ => nofun
    have hexpand : ∀ n t runs, expandRuns ((n, t) :: runs) = List.replicate n t ++ expandRuns runs :=
      fun n t runs => rfl
    refine h.congr fun bytes locals => ?_
    constructor
    · rintro ⟨n, front, _, rfl, hn, hle, t, _, back, rfl, rfl, runs, rfl, rfl, hbound, hback⟩
      refine ⟨(n.toNat, t) :: runs, ?_, rfl, ?_, ?_⟩
      · simp [hexpand]
      · rw [hexpand, List.length_append, List.length_replicate]
        omega
      · rw [← List.append_assoc]
        exact .cons (.intro hn) hback
    · rintro ⟨runs, rfl, hlen, hbound, hruns⟩
      cases hruns with
      | nil => cases hlen
      | @cons _ back _ runs hrun hback =>
        obtain @⟨front, n, t, hn⟩ := hrun
        rw [hexpand, List.length_append, List.length_replicate] at hbound
        refine ⟨n, front, [t.byte] ++ back, List.append_assoc .., hn, by omega, t, [t.byte], back, rfl, rfl,
          runs, ?_, Nat.succ.inj hlen, by omega, hback⟩
        simp [hexpand]

theorem readsAll_function : ReadsAll function FunctionForm := by
  have h : ReadsAll function _ :=
    reads_unsigned.bindAll fun n =>
      (reads_declarations n.toNat 0 [] (Nat.zero_le _)).bindAll fun locals => readsAll_toEnd.map _
  intro bytes pos f r
  rw [h bytes pos f r]
  refine and_congr_left fun _ => ?_
  constructor
  · rintro ⟨n, front, _, rfl, hn, _, back, _, rfl, ⟨runs, rfl, hlen, hbound, hruns⟩, body, rfl, rfl⟩
    rw [← List.append_assoc]
    exact .intro (.intro hn hlen.symm hruns) (by omega)
  · rintro ⟨⟨hn, hlen, hruns⟩, hbound⟩
    exact ⟨_, _, _, List.append_assoc .., hn, _, _, _, rfl, ⟨_, rfl, hlen.symm, by omega, hruns⟩, _, rfl, rfl⟩

theorem reads_codeEntry : Reads codeEntry EntryForm := by
  have h : Reads codeEntry _ :=
    .position_bind fun offset => reads_unsigned.bind fun n =>
      .guarded (fun _ => .position_bind fun start => (reads_take n.toNat).bind fun entry =>
        reads_ofPart start (function.onBytes entry)) fun _ _ _ => nofun
  refine h.congr fun bytes f => ?_
  constructor
  · rintro ⟨n, front, _, rfl, hn, hle, entry, _, _, rfl, ⟨rfl, hlen⟩, rfl, hf⟩
    rw [List.append_nil]
    exact .intro hn hlen.symm ⟨readsAll_function.onBytes_eq_ok_iff.1 hf, by omega⟩
  · rintro ⟨hn, hlen, hf, hle⟩
    exact ⟨_, _, _, rfl, hn, by omega, _, _, [], (List.append_nil _).symm, ⟨rfl, hlen.symm⟩, rfl,
      readsAll_function.onBytes_eq_ok_iff.2 hf⟩

/-! ## Sections -/

theorem readsAll_custom (content : List UInt8) :
    ReadsAll (custom content) fun bytes s =>
      ∃ name front rest, bytes = front ++ rest ∧ NameForm front name ∧ s = .custom name content := by
  have h : ReadsAll (custom content) _ :=
    reads_name.bindAll fun name => readsAll_toEnd.map fun _ => Section.custom name content
  intro bytes pos s r
  rw [h bytes pos s r]
  refine and_congr_left fun _ => ?_
  constructor
  · rintro ⟨name, front, rest, rfl, hname, _, _, rfl⟩
    exact ⟨name, front, rest, rfl, hname, rfl⟩
  · rintro ⟨name, front, rest, rfl, hname, rfl⟩
    exact ⟨name, front, rest, rfl, hname, rest, rfl, rfl⟩

end Read

open Read

theorem ofId_eq_unknown {id : UInt8} (h : id ∉ [0, 1, 3, 4, 5, 7, 10]) :
    SectionKind.ofId id = .unknown := by
  simp only [List.mem_cons, List.not_mem_nil, or_false, not_or] at h
  obtain ⟨h0, h1, h3, h4, h5, h7, h10⟩ := h
  simp only [SectionKind.ofId, h0, h1, h3, h4, h5, h7, h10, if_false]

namespace Section

theorem readWith_eq_ok_iff {reserve : Reserve} {id : UInt8} {content : List UInt8} {s : Section} {trailing : Nat} :
    readWith reserve id content = .ok (s, trailing) ↔
      ∃ r, sectionContent reserve id content (.clean content 0) = .ok s r ∧ trailing = r.bytes.length := by
  rw [readWith, Reader.ofBytes_eq]
  cases sectionContent reserve id content (.clean content 0) with
  | ok a r => simp; grind
  | error e r => simp

theorem read_eq_ok_iff {id : UInt8} {content : List UInt8} {s : Section} {trailing : Nat} :
    read id content = .ok (s, trailing) ↔
      ∃ r, sectionContent allocate id content (.clean content 0) = .ok s r ∧ trailing = r.bytes.length :=
  readWith_eq_ok_iff

/-- Reading a content that a vector opens. -/
theorem exists_read_iff {α : Type} {id : UInt8} {content : List UInt8} {action : Read α} {form : Form α}
    {make : α → Section} (h : Reads action form) (hid : sectionContent allocate id content = make <$> action)
    {s : Section} : (∃ trailing, read id content = .ok (s, trailing)) ↔
      ∃ a front rest, content = front ++ rest ∧ form front a ∧ s = make a := by
  simp only [read_eq_ok_iff, hid, (h.map make) _ _ _ _]
  constructor
  · rintro ⟨_, _, ⟨front, rest, rfl, ⟨a, hform, rfl⟩, rfl⟩, rfl⟩
    exact ⟨a, front, rest, rfl, hform, rfl⟩
  · rintro ⟨a, front, rest, rfl, hform, rfl⟩
    exact ⟨_, _, ⟨front, rest, rfl, ⟨a, hform, rfl⟩, rfl⟩, rfl⟩

theorem contentForm_of_read {id : UInt8} {content : List UInt8} {s : Section} {trailing : Nat}
    (h : read id content = .ok (s, trailing)) : ContentForm id content s := by
  by_cases h0 : id = 0
  · subst h0
    obtain ⟨r, hr, -⟩ := read_eq_ok_iff.1 h
    obtain ⟨⟨name, front, rest, rfl, hname, rfl⟩, -⟩ := (readsAll_custom content ..).1 hr
    exact .custom hname
  by_cases h1 : id = 1
  · subst h1
    obtain ⟨_, front, rest, rfl, hform, rfl⟩ :=
      (exists_read_iff (reads_sectionVector .types .types reads_functionType) rfl).1 ⟨_, h⟩
    exact .types hform
  by_cases h3 : id = 3
  · subst h3
    obtain ⟨_, front, rest, rfl, hform, rfl⟩ :=
      (exists_read_iff (reads_sectionVector .functions .functions fun _ => reads_unsigned) rfl).1 ⟨_, h⟩
    exact .functions hform
  by_cases h4 : id = 4
  · subst h4
    obtain ⟨_, front, rest, rfl, hform, rfl⟩ :=
      (exists_read_iff (reads_sectionVector .tables .tables fun _ => reads_table) rfl).1 ⟨_, h⟩
    exact .tables hform
  by_cases h5 : id = 5
  · subst h5
    obtain ⟨_, front, rest, rfl, hform, rfl⟩ := (exists_read_iff reads_memories rfl).1 ⟨_, h⟩
    exact .memories hform
  by_cases h7 : id = 7
  · subst h7
    obtain ⟨_, front, rest, rfl, hform, rfl⟩ :=
      (exists_read_iff (reads_sectionVector .exports .exports fun _ => reads_exportEntry) rfl).1 ⟨_, h⟩
    exact .exports hform
  by_cases h10 : id = 10
  · subst h10
    obtain ⟨_, front, rest, rfl, hform, rfl⟩ :=
      (exists_read_iff (reads_sectionVector .code .bodies fun _ => reads_codeEntry) rfl).1 ⟨_, h⟩
    exact .code hform
  have hid : id ∉ [0, 1, 3, 4, 5, 7, 10] := by simp [h0, h1, h3, h4, h5, h7, h10]
  obtain ⟨r, hr, -⟩ := read_eq_ok_iff.1 h
  rw [sectionContent, ofId_eq_unknown hid] at hr
  cases hr
  exact .unknown hid

theorem exists_read_of_contentForm {id : UInt8} {content : List UInt8} {s : Section}
    (h : ContentForm id content s) : ∃ trailing, read id content = .ok (s, trailing) := by
  cases h with
  | @custom front rest name hname =>
    have hr := (readsAll_custom (front ++ rest) (front ++ rest) 0 (.custom name (front ++ rest)) _).2
      ⟨⟨name, front, rest, rfl, hname, rfl⟩, rfl⟩
    exact ⟨_, read_eq_ok_iff.2 ⟨_, hr, rfl⟩⟩
  | types hform =>
    exact (exists_read_iff (reads_sectionVector .types .types reads_functionType) rfl).2 ⟨_, _, _, rfl, hform, rfl⟩
  | functions hform =>
    exact (exists_read_iff (reads_sectionVector .functions .functions fun _ => reads_unsigned) rfl).2
      ⟨_, _, _, rfl, hform, rfl⟩
  | tables hform =>
    exact (exists_read_iff (reads_sectionVector .tables .tables fun _ => reads_table) rfl).2
      ⟨_, _, _, rfl, hform, rfl⟩
  | memories hform => exact (exists_read_iff reads_memories rfl).2 ⟨_, _, _, rfl, hform, rfl⟩
  | exports hform =>
    exact (exists_read_iff (reads_sectionVector .exports .exports fun _ => reads_exportEntry) rfl).2
      ⟨_, _, _, rfl, hform, rfl⟩
  | code hform =>
    exact (exists_read_iff (reads_sectionVector .code .bodies fun _ => reads_codeEntry) rfl).2
      ⟨_, _, _, rfl, hform, rfl⟩
  | unknown hid =>
    refine ⟨_, read_eq_ok_iff.2 ⟨.clean [] (0 + content.length), ?_, rfl⟩⟩
    rw [sectionContent, ofId_eq_unknown hid]
    rfl

end Section

end StackVm
