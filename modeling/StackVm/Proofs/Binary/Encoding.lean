import StackVm.Binary.Content
import StackVm.Proofs.Binary.Contents
import StackVm.Proofs.Binary.LocalRuns

/-!
# What is written is a form, and the shortest one

A section that respects the bounds of the grammar (`Section.WellFormed`) is
written as a form of itself (`frameForm_encode`). Conversely a section
that has any form respects the bounds, and what is written for it is no longer
than that form (`FrameForm.wellFormed`, `FrameForm.length_encode_le`).

The bound on the size of a code entry is on what is written: a form of an
entry may spell integers at length, or declare the same locals piece by piece,
so it may be longer, but never shorter.
-/

namespace StackVm

open Leb128 (Spells)

section

variable {α : Type} {form : Form α} {write : α → List UInt8}

/-! ## Lengths, counts and sizes -/

theorem length_le_length_flatMap {entries : List α} {a : α} (h : a ∈ entries) :
    (write a).length ≤ (entries.flatMap write).length :=
  (List.sublist_flatten_of_mem (List.mem_map_of_mem h)).length_le

theorem length_ofLength_le {bytes : List UInt8} {v : UInt32} {n : Nat} (h : Spells bytes v)
    (hn : n ≤ v.toNat) : (Bytes.ofLength n).length ≤ bytes.length := by
  rw [Bytes.ofLength, Leb128.ofUInt32, UInt32.toNat_ofNat']
  exact h.length_ofNat_le (Nat.le_trans (Nat.mod_le _ _) hn)

theorem sequenceForm_flatMap {entries : List α} (h : ∀ a ∈ entries, form (write a) a) :
    SequenceForm form (entries.flatMap write) entries := by
  induction entries with
  | nil => exact .nil
  | cons a entries ih =>
    rw [List.flatMap_cons]
    exact .cons (h a List.mem_cons_self) (ih fun b hb => h b (List.mem_cons_of_mem _ hb))

theorem countedForm_ofVector {entries : List α} (hlen : entries.length < 2 ^ 32)
    (h : ∀ a ∈ entries, form (write a) a) : CountedForm form (Bytes.ofVector write entries) entries :=
  .intro (Leb128.spells_ofUInt32 _) (UInt32.toNat_ofNat_of_lt' hlen) (sequenceForm_flatMap h)

theorem vectorForm_ofVector {entries : List α} {bound : Nat} (hlen : entries.length ≤ bound)
    (hbound : bound < 2 ^ 32) (h : ∀ a ∈ entries, form (write a) a) :
    VectorForm bound form (Bytes.ofVector write entries) entries :=
  ⟨countedForm_ofVector (Nat.lt_of_le_of_lt hlen hbound) h, hlen⟩

theorem sizedForm_sized {content : List UInt8} {a : α} (hlen : content.length < 2 ^ 32)
    (h : form content a) : SizedForm form (Bytes.sized content) a :=
  .intro (Leb128.spells_ofUInt32 _) (UInt32.toNat_ofNat_of_lt' hlen) h

theorem SequenceForm.length_flatMap_le {β : Type} {parts : α → List β} {bytes : List UInt8} {entries : List α}
    (h : SequenceForm form bytes entries)
    (hparts : ∀ bytes a, form bytes a → (parts a).length ≤ bytes.length) :
    (entries.flatMap parts).length ≤ bytes.length := by
  induction h with
  | nil => exact Nat.le_refl _
  | @cons front back a entries hfront _ ih =>
    have := hparts front a hfront
    rw [List.flatMap_cons, List.length_append, List.length_append]
    omega

theorem CountedForm.length_ofVector_le {bytes : List UInt8} {entries : List α}
    (h : CountedForm form bytes entries)
    (hwrite : ∀ bytes a, form bytes a → (write a).length ≤ bytes.length) :
    (Bytes.ofVector write entries).length ≤ bytes.length := by
  obtain ⟨hn, hlen, hback⟩ := h
  have := length_ofLength_le hn (Nat.le_of_eq hlen.symm)
  have := hback.length_flatMap_le hwrite
  rw [Bytes.ofVector, List.length_append, List.length_append]
  omega

theorem SizedForm.length_sized_le {bytes : List UInt8} {a : α} (h : SizedForm form bytes a)
    (hwrite : ∀ content a, form content a → (write a).length ≤ content.length) :
    (Bytes.sized (write a)).length ≤ bytes.length := by
  obtain @⟨front, content, size, _, hn, hlen, hcontent⟩ := h
  have hle := hwrite content a hcontent
  have := length_ofLength_le hn (show (write a).length ≤ size.toNat by omega)
  rw [Bytes.sized, List.length_append, List.length_append]
  omega

/-- What is written for a vector is no longer than a form of it, with or
without bytes behind it. -/
theorem VectorForm.length_ofVector_le {bytes : List UInt8} {entries : List α} {bound : Nat}
    (h : VectorForm bound form bytes entries)
    (hwrite : ∀ bytes a, form bytes a → (write a).length ≤ bytes.length) (trailing : List UInt8) :
    (Bytes.ofVector write entries).length ≤ (bytes ++ trailing).length := by
  have := h.1.length_ofVector_le hwrite
  rw [List.length_append]
  omega

theorem SequenceForm.forall_mem {bytes : List UInt8} {entries : List α} {P : α → Prop}
    (h : SequenceForm form bytes entries) (hP : ∀ bytes a, form bytes a → P a) : ∀ a ∈ entries, P a := by
  induction h with
  | nil => exact fun a ha => nomatch ha
  | cons hfront _ ih => exact List.forall_mem_cons.2 ⟨hP _ _ hfront, ih⟩

theorem VectorForm.forall_mem {bytes : List UInt8} {entries : List α} {bound : Nat} {P : α → Prop}
    (h : VectorForm bound form bytes entries) (hP : ∀ bytes a, form bytes a → P a) :
    ∀ a ∈ entries, P a := by
  obtain ⟨⟨_, _, hback⟩, _⟩ := h
  exact hback.forall_mem hP

end

/-! ## Definitions -/

theorem nameForm_ofName {name : String} (h : (Utf8.encode name).length < 2 ^ 32) :
    NameForm (Bytes.ofName name) name :=
  sizedForm_sized h rfl

theorem NameForm.length_ofName_le {bytes : List UInt8} {name : String} (h : NameForm bytes name) :
    (Bytes.ofName name).length ≤ bytes.length :=
  SizedForm.length_sized_le h fun content text htext => Nat.le_of_eq (by rw [htext])

theorem limitForm_ofLimit (l : Limit) : LimitForm (Bytes.ofLimit l) l := by
  obtain ⟨min, max⟩ := l
  cases max with
  | none => exact .unbounded (Leb128.spells_ofUInt32 min)
  | some max => exact .bounded (by decide) (Leb128.spells_ofUInt32 min) (Leb128.spells_ofUInt32 max)

theorem LimitForm.length_ofLimit_le {bytes : List UInt8} {l : Limit} (h : LimitForm bytes l) :
    (Bytes.ofLimit l).length ≤ bytes.length := by
  cases h with
  | unbounded hmin => exact Nat.succ_le_succ (hmin.length_ofNat_le (Nat.le_refl _))
  | bounded _ hmin hmax =>
    refine Nat.succ_le_succ ?_
    rw [List.append_eq, List.length_append, List.length_append]
    exact Nat.add_le_add (hmin.length_ofNat_le (Nat.le_refl _)) (hmax.length_ofNat_le (Nat.le_refl _))

theorem valueTypesForm_ofTypes {types : List ValueType} (h : types.length ≤ Counted.valueTypes.limit) :
    VectorForm Counted.valueTypes.limit ValueTypeForm (Bytes.ofTypes types) types :=
  vectorForm_ofVector h (by decide) fun _ _ => rfl

theorem length_ofTypes_le {bytes : List UInt8} {types : List ValueType}
    (h : VectorForm Counted.valueTypes.limit ValueTypeForm bytes types) :
    (Bytes.ofTypes types).length ≤ bytes.length :=
  h.1.length_ofVector_le fun bytes t ht => Nat.le_of_eq (by rw [ht])

theorem functionTypeForm_ofFunctionType {t : FunctionType}
    (h : t.parameters.length ≤ Counted.valueTypes.limit ∧ t.results.length ≤ Counted.valueTypes.limit) :
    FunctionTypeForm (Bytes.ofFunctionType t) t :=
  .intro (valueTypesForm_ofTypes h.1) (valueTypesForm_ofTypes h.2)

theorem FunctionTypeForm.length_ofFunctionType_le {bytes : List UInt8} {t : FunctionType}
    (h : FunctionTypeForm bytes t) : (Bytes.ofFunctionType t).length ≤ bytes.length := by
  obtain ⟨hp, hr⟩ := h
  refine Nat.succ_le_succ ?_
  rw [List.append_eq, List.length_append, List.length_append]
  exact Nat.add_le_add (length_ofTypes_le hp) (length_ofTypes_le hr)

theorem FunctionTypeForm.bounds {bytes : List UInt8} {t : FunctionType} (h : FunctionTypeForm bytes t) :
    t.parameters.length ≤ Counted.valueTypes.limit ∧ t.results.length ≤ Counted.valueTypes.limit := by
  obtain ⟨hp, hr⟩ := h
  exact ⟨hp.2, hr.2⟩

theorem tableForm_ofTable (t : Table) : TableForm (Bytes.ofTable t) t :=
  .intro (limitForm_ofLimit t.limit)

theorem TableForm.length_ofTable_le {bytes : List UInt8} {t : Table} (h : TableForm bytes t) :
    (Bytes.ofTable t).length ≤ bytes.length := by
  obtain ⟨hl⟩ := h
  exact Nat.succ_le_succ hl.length_ofLimit_le

theorem exportForm_ofExport {e : Export} (h : (Bytes.ofExport e).length < 2 ^ 32) :
    ExportForm (Bytes.ofExport e) e := by
  refine .intro (nameForm_ofName ?_) (Leb128.spells_ofUInt32 e.index)
  rw [Bytes.ofExport, Bytes.ofName, Bytes.sized, List.length_append, List.length_append] at h
  omega

theorem ExportForm.length_ofExport_le {bytes : List UInt8} {e : Export} (h : ExportForm bytes e) :
    (Bytes.ofExport e).length ≤ bytes.length := by
  obtain ⟨hname, hindex⟩ := h
  rw [Bytes.ofExport, List.length_append, List.length_append]
  exact Nat.add_le_add hname.length_ofName_le (Nat.succ_le_succ (hindex.length_ofNat_le (Nat.le_refl _)))

/-! ## Function bodies -/

theorem declarationForm_ofRun {run : Nat × ValueType} (h : run.1 < 2 ^ 32) :
    DeclarationForm (Bytes.ofRun run) run := by
  have hform := DeclarationForm.intro (t := run.2) (Leb128.spells_ofUInt32 (UInt32.ofNat run.1))
  rwa [UInt32.toNat_ofNat_of_lt' h] at hform

theorem DeclarationForm.length_ofRun_le {bytes : List UInt8} {run : Nat × ValueType}
    (h : DeclarationForm bytes run) : (Bytes.ofRun run).length ≤ bytes.length := by
  obtain ⟨hn⟩ := h
  rw [Bytes.ofRun, List.length_append, List.length_append]
  exact Nat.add_le_add_right (length_ofLength_le hn (Nat.le_refl _)) 1

/-- Few locals have few runs, and short ones, so that no count is cut off. -/
theorem countedForm_localRuns {locals : List ValueType} (h : locals.length < 2 ^ 32) :
    CountedForm DeclarationForm (Bytes.ofVector Bytes.ofRun (localRuns locals)) (localRuns locals) := by
  have hruns := length_localRuns_le_length locals
  refine countedForm_ofVector (by omega) fun run hrun => declarationForm_ofRun ?_
  have := le_length_of_mem_localRuns hrun
  omega

/-- No declarations of the same locals take fewer bytes, however they are spelled. -/
theorem CountedForm.length_ofVector_localRuns_le {bytes : List UInt8} {runs : List (Nat × ValueType)}
    (h : CountedForm DeclarationForm bytes runs) :
    (Bytes.ofVector Bytes.ofRun (localRuns (expandRuns runs))).length ≤ bytes.length := by
  obtain @⟨front, back, n, _, hn, hlen, hruns⟩ := h
  have := length_ofLength_le hn (show (localRuns (expandRuns runs)).length ≤ n.toNat by
    have := length_localRuns_le runs
    omega)
  have := length_flatMap_ofRun_le runs
  have := hruns.length_flatMap_le fun bytes run => DeclarationForm.length_ofRun_le
  rw [Bytes.ofVector, List.length_append, List.length_append]
  omega

theorem functionForm_ofFunction {f : Function} (h : f.locals.length ≤ Bounds.locals) :
    FunctionForm (Bytes.ofFunction f) f := by
  have hexpand := expandRuns_localRuns f.locals
  have hcounted := countedForm_localRuns (Nat.lt_of_le_of_lt h (by decide))
  have hform := @FunctionForm.intro _ f.body _ hcounted (by rw [hexpand]; exact h)
  rwa [hexpand] at hform

theorem FunctionForm.length_ofFunction_le {bytes : List UInt8} {f : Function} (h : FunctionForm bytes f) :
    (Bytes.ofFunction f).length ≤ bytes.length := by
  obtain ⟨hruns, _⟩ := h
  rw [Bytes.ofFunction, List.length_append, List.length_append]
  exact Nat.add_le_add_right hruns.length_ofVector_localRuns_le _

theorem FunctionForm.length_locals_le {bytes : List UInt8} {f : Function} (h : FunctionForm bytes f) :
    f.locals.length ≤ Bounds.locals := by
  obtain ⟨_, hle⟩ := h
  exact hle

theorem entryForm_ofCodeEntry {f : Function} (hlocals : f.locals.length ≤ Bounds.locals)
    (hsize : (Bytes.ofFunction f).length ≤ Bounds.entrySize) : EntryForm (Bytes.ofCodeEntry f) f :=
  sizedForm_sized (Nat.lt_of_le_of_lt hsize (by decide)) ⟨functionForm_ofFunction hlocals, hsize⟩

theorem EntryForm.length_ofCodeEntry_le {bytes : List UInt8} {f : Function} (h : EntryForm bytes f) :
    (Bytes.ofCodeEntry f).length ≤ bytes.length :=
  SizedForm.length_sized_le h fun _ _ hf => hf.1.length_ofFunction_le

theorem EntryForm.bounds {bytes : List UInt8} {f : Function} (h : EntryForm bytes f) :
    f.locals.length ≤ Bounds.locals ∧ (Bytes.ofFunction f).length ≤ Bounds.entrySize := by
  obtain ⟨_, _, hf, hle⟩ := h
  exact ⟨hf.length_locals_le, Nat.le_trans hf.length_ofFunction_le hle⟩

/-! ## Sections -/

/-- The sections that can be read back from what is written for them. -/
def Section.WellFormed : Section → Prop
  | custom name payload => Read.name.onBytes payload = .ok name
  | types entries => entries.length ≤ 1000000 ∧
      ∀ t ∈ entries, t.parameters.length ≤ 1000 ∧ t.results.length ≤ 1000
  | functions entries => entries.length ≤ 1000000
  | tables entries => entries.length ≤ 100000
  | memories entries => entries.length ≤ 1
  | exports entries => entries.length ≤ 1000000
  | code entries => entries.length ≤ 1000000 ∧
      ∀ f ∈ entries, f.locals.length ≤ 50000 ∧ (Bytes.ofFunction f).length ≤ Bounds.entrySize
  | unknown id _ => id ∉ [0, 1, 3, 4, 5, 7, 10]

theorem onBytes_name_eq_ok_iff {bytes : List UInt8} {name : String} :
    Read.name.onBytes bytes = .ok name ↔ ∃ front rest, bytes = front ++ rest ∧ NameForm front name := by
  rw [Read.onBytes, Reader.ofBytes_eq]
  constructor
  · intro h
    split at h
    · next text r hr =>
      cases h
      obtain ⟨front, rest, hbytes, hname, -⟩ := (Read.reads_name ..).1 hr
      exact ⟨front, rest, hbytes, hname⟩
    · cases h
  · rintro ⟨front, rest, rfl, hname⟩
    rw [(Read.reads_name ..).2 ⟨front, rest, rfl, hname, rfl⟩]

theorem ContentForm.of_append_nil {id : UInt8} {content : List UInt8} {s : Section}
    (h : ContentForm id (content ++ []) s) : ContentForm id content s := by
  rwa [List.append_nil] at h

/-- A well-formed section is written as a form of itself. The size of its
content bounds the lengths of the names in it. -/
theorem contentForm_content {s : Section} (h : s.WellFormed) (hsize : s.content.length < 2 ^ 32) :
    ContentForm s.id s.content s := by
  cases s with
  | custom name payload =>
    obtain ⟨front, rest, rfl, hname⟩ := onBytes_name_eq_ok_iff.1 h
    exact .custom hname
  | types entries =>
    refine .of_append_nil (.types (vectorForm_ofVector h.1 (by decide) fun t ht => ?_))
    exact functionTypeForm_ofFunctionType (h.2 t ht)
  | functions entries =>
    exact .of_append_nil (.functions (vectorForm_ofVector h (by decide) fun v _ => Leb128.spells_ofUInt32 v))
  | tables entries =>
    exact .of_append_nil (.tables (vectorForm_ofVector h (by decide) fun t _ => tableForm_ofTable t))
  | memories entries =>
    exact .of_append_nil (.memories (vectorForm_ofVector h (by decide) fun l _ => limitForm_ofLimit l))
  | exports entries =>
    refine .of_append_nil (.exports (vectorForm_ofVector h (by decide) fun e he => exportForm_ofExport ?_))
    have hle : (Bytes.ofExport e).length ≤ (entries.flatMap Bytes.ofExport).length :=
      length_le_length_flatMap he
    rw [Section.content, Bytes.ofVector, List.length_append] at hsize
    omega
  | code entries =>
    refine .of_append_nil (.code (vectorForm_ofVector h.1 (by decide) fun f hf => ?_))
    exact entryForm_ofCodeEntry (h.2 f hf).1 (h.2 f hf).2
  | unknown id payload => exact .unknown h

/-- A section with a form respects the bounds, and what is written as its
content is no longer than that form. -/
theorem ContentForm.wellFormed {id : UInt8} {content : List UInt8} {s : Section}
    (h : ContentForm id content s) : s.WellFormed ∧ s.content.length ≤ content.length := by
  cases h with
  | custom hname => exact ⟨onBytes_name_eq_ok_iff.2 ⟨_, _, rfl, hname⟩, Nat.le_refl _⟩
  | types hform =>
    exact ⟨⟨hform.2, hform.forall_mem fun _ _ => FunctionTypeForm.bounds⟩,
      hform.length_ofVector_le (fun _ _ => FunctionTypeForm.length_ofFunctionType_le) _⟩
  | functions hform =>
    exact ⟨hform.2, hform.length_ofVector_le (fun _ _ h => h.length_ofNat_le (Nat.le_refl _)) _⟩
  | tables hform =>
    exact ⟨hform.2, hform.length_ofVector_le (fun _ _ => TableForm.length_ofTable_le) _⟩
  | memories hform =>
    exact ⟨hform.2, hform.length_ofVector_le (fun _ _ => LimitForm.length_ofLimit_le) _⟩
  | exports hform =>
    exact ⟨hform.2, hform.length_ofVector_le (fun _ _ => ExportForm.length_ofExport_le) _⟩
  | code hform =>
    exact ⟨⟨hform.2, hform.forall_mem fun _ _ => EntryForm.bounds⟩,
      hform.length_ofVector_le (fun _ _ => EntryForm.length_ofCodeEntry_le) _⟩
  | unknown hid => exact ⟨hid, Nat.le_refl _⟩

theorem frameForm_encode {s : Section} (h : s.WellFormed) (hsize : s.content.length < 2 ^ 32) :
    FrameForm s.encode s :=
  .intro (sizedForm_sized hsize (contentForm_content h hsize))

theorem FrameForm.wellFormed {bytes : List UInt8} {s : Section} (h : FrameForm bytes s) :
    s.WellFormed ∧ s.content.length < 2 ^ 32 := by
  obtain ⟨@⟨_, content, n, _, _, hlen, hcontent⟩⟩ := h
  obtain ⟨hs, hle⟩ := hcontent.wellFormed
  have := n.toNat_lt
  exact ⟨hs, by omega⟩

theorem FrameForm.length_encode_le {bytes : List UInt8} {s : Section} (h : FrameForm bytes s) :
    s.encode.length ≤ bytes.length := by
  obtain ⟨hsized⟩ := h
  exact Nat.succ_le_succ (hsized.length_sized_le fun content s hs => hs.wellFormed.2)

end StackVm
