import Mathlib.Data.List.Nodup
import StackVm.Proofs.Module.Lookup
import StackVm.Proofs.Module.Validation

/-!
# Looking up in valid modules

Of the sections of a kind, a lookup takes the last one, and of the entries with a
name the first one. In a module that passes validation there is nothing to choose
from: validation counts sections by their number and entries by their name, and
leaves one of each (`Module.lookups_of_validate`).

* `Module.Valid.find?_eq_some_iff`: a kind of section other than custom and unknown
  has one number, so there is one section of it at most;
* `Module.Valid.findExport?_eq_some_iff`: so there is one section of exports, in
  which every name stands once.
-/

namespace StackVm

/-! ## Sections -/

/-- The number that all sections of a kind have, if it is one that no two of them
may have. -/
def SectionKind.uniqueId? : SectionKind → Option UInt8
  | custom | unknown => none
  | types => some 1
  | functions => some 3
  | tables => some 4
  | memories => some 5
  | exports => some 7
  | code => some 10

theorem SectionKind.exists_uniqueId {kind : SectionKind} (hcustom : kind ≠ .custom) (hunknown : kind ≠ .unknown) :
    ∃ id : UInt8, 1 ≤ id ∧ id ≤ 12 ∧ kind.uniqueId? = some id := by
  cases kind with
  | custom => exact absurd rfl hcustom
  | unknown => exact absurd rfl hunknown
  | types | functions | tables | memories | exports | code => exact ⟨_, by decide, by decide, rfl⟩

theorem Section.id_of_uniqueId? {s : Section} {id : UInt8} (h : s.kind.uniqueId? = some id) : s.id = id := by
  cases s <;> cases h <;> rfl

namespace Module

variable {m : Module} {kind : SectionKind}

theorem Valid.length_sections_le (h : m.Valid) (hcustom : kind ≠ .custom) (hunknown : kind ≠ .unknown) :
    (m.sections.toList.filter (·.kind = kind)).length ≤ 1 := by
  obtain ⟨id, hpos, hle, hid⟩ := SectionKind.exists_uniqueId hcustom hunknown
  have hrepeats := h.unique id hpos hle
  rw [Repeats, List.duplicate_iff_two_le_count, List.count_eq_countP, List.countP_map] at hrepeats
  have hcount : m.sections.toList.countP (·.kind = kind) ≤ m.sections.toList.countP ((· == id) ∘ Section.id) := by
    refine List.countP_mono_left fun s _ hkind => ?_
    rw [decide_eq_true_eq] at hkind
    exact beq_iff_eq.2 (Section.id_of_uniqueId? (hkind ▸ hid))
  rw [← List.countP_eq_length_filter]
  omega

/-- There is at most one section to find. -/
theorem Valid.find?_eq_some_iff (h : m.Valid) (hm : m.Indexed) (hcustom : kind ≠ .custom)
    (hunknown : kind ≠ .unknown) (s : Section) : m.find? kind = some s ↔ s ∈ m.sections ∧ s.kind = kind := by
  have hlength := h.length_sections_le hcustom hunknown
  have hmem : s ∈ m.sections ∧ s.kind = kind ↔ s ∈ m.sections.toList.filter (·.kind = kind) := by
    rw [List.mem_filter, Array.mem_toList_iff, decide_eq_true_eq]
  rw [hm.find?_eq, hmem]
  generalize m.sections.toList.filter (·.kind = kind) = sections at hlength
  rcases sections with _ | ⟨found, _ | ⟨other, others⟩⟩
  · rw [List.getLast?_nil]
    exact ⟨nofun, nofun⟩
  · rw [List.getLast?_singleton, List.mem_singleton, Option.some.injEq, eq_comm]
  · simp only [List.length_cons] at hlength
    omega

/-! ## Exports -/

/-- The entry stands in a section of exports. -/
def HasExport (m : Module) (e : Export) : Prop :=
  ∃ entries, .exports entries ∈ m.sections ∧ e ∈ entries

theorem Valid.exports?_eq_some_iff (h : m.Valid) (hm : m.Indexed) (entries : List Export) :
    m.exports? = some entries ↔ .exports entries ∈ m.sections := by
  rw [Module.exports?_eq_some_iff, h.find?_eq_some_iff hm (by decide) (by decide)]
  exact and_iff_left rfl

/-- Entries of one name are one entry. -/
theorem Valid.export_unique (h : m.Valid) (hm : m.Indexed) {e e' : Export} (he : m.HasExport e)
    (he' : m.HasExport e') (hname : e.name = e'.name) : e = e' := by
  obtain ⟨entries, hentries, hmem⟩ := he
  obtain ⟨entries', hentries', hmem'⟩ := he'
  have hsame := (h.exports?_eq_some_iff hm entries).2 hentries
  rw [(h.exports?_eq_some_iff hm entries').2 hentries'] at hsame
  cases hsame
  have hnodup : (entries.map Export.name).Nodup := h.sound _ hentries
  exact List.inj_on_of_nodup_map hnodup hmem hmem' hname

/-- What a search through the exports finds is there. -/
theorem Valid.hasExport_of_find? (h : m.Valid) (hm : m.Indexed) {p : Export → Bool} {e : Export}
    (hfind : (m.exports? >>= (·.find? p)) = some e) : m.HasExport e ∧ p e := by
  obtain ⟨entries, hentries, hfound⟩ := Option.bind_eq_some_iff.1 hfind
  exact ⟨⟨entries, (h.exports?_eq_some_iff hm entries).1 hentries, List.mem_of_find?_eq_some hfound⟩,
    List.find?_some hfound⟩

/-- A search through the exports finds something if it is there. -/
theorem Valid.exists_find? (h : m.Valid) (hm : m.Indexed) {p : Export → Bool} {e : Export} (he : m.HasExport e)
    (hp : p e) : ∃ e', (m.exports? >>= (·.find? p)) = some e' := by
  obtain ⟨entries, hentries, hmem⟩ := he
  obtain ⟨e', hfound⟩ := Option.isSome_iff_exists.1 (List.find?_isSome.2 ⟨e, hmem, hp⟩)
  exact ⟨e', Option.bind_eq_some_iff.2 ⟨entries, (h.exports?_eq_some_iff hm entries).2 hentries, hfound⟩⟩

theorem Valid.findExport?_eq_some_iff (h : m.Valid) (hm : m.Indexed) {name : String} {e : Export} :
    m.findExport? name = some e ↔ m.HasExport e ∧ e.name = name := by
  have hname : ∀ {e : Export}, m.findExport? name = some e → m.HasExport e ∧ e.name = name := by
    intro e hfind
    obtain ⟨he, heq⟩ := h.hasExport_of_find? hm hfind
    exact ⟨he, beq_iff_eq.1 heq⟩
  refine ⟨hname, fun ⟨he, heq⟩ => ?_⟩
  obtain ⟨e', hfound⟩ : ∃ e', m.findExport? name = some e' := h.exists_find? hm he (beq_iff_eq.2 heq)
  obtain ⟨he', heq'⟩ := hname hfound
  rw [hfound, h.export_unique hm he' he (heq'.trans heq.symm)]

theorem functionName?_eq (m : Module) (index : UInt32) : m.functionName? index =
    (m.exports? >>= (·.find? fun e => e.kind == .func && e.index == index)).map Export.name := by
  rw [functionName?]
  cases m.exports? with
  | none => rfl
  | some entries =>
    simp only [Option.bind_eq_bind, Option.bind_some]
    cases entries.find? fun e => e.kind == .func && e.index == index <;> rfl

/-- A function goes by a name under which it is exported. -/
theorem Valid.functionName?_eq_some (h : m.Valid) (hm : m.Indexed) {index : UInt32} {name : String}
    (hname : m.functionName? index = some name) : m.HasExport ⟨name, .func, index⟩ := by
  rw [functionName?_eq] at hname
  obtain ⟨⟨name', kind, index'⟩, hfound, rfl⟩ := Option.map_eq_some_iff.1 hname
  obtain ⟨he, hp⟩ := h.hasExport_of_find? hm hfound
  simp only [Bool.and_eq_true, beq_iff_eq] at hp
  rwa [← hp.1, ← hp.2]

theorem Valid.exists_functionName (h : m.Valid) (hm : m.Indexed) {e : Export} (he : m.HasExport e)
    (hkind : e.kind = .func) : ∃ name, m.functionName? e.index = some name := by
  obtain ⟨e', hfound⟩ := h.exists_find? hm (p := fun e' => e'.kind == .func && e'.index == e.index) he (by simp [hkind])
  rw [functionName?_eq, hfound]
  exact ⟨_, rfl⟩

/-- In a module that passes validation there is at most one section of each kind
other than custom and unknown, and it is the one that is found. So an export is
found under a name just if it is somewhere in the module, and no other has the name.
A function that is exported has a name, and is what is exported under it. -/
theorem lookups_of_validate (hm : m.Built) (h : m.validate = .ok ()) :
    (∀ kind, kind ≠ .custom → kind ≠ .unknown →
      (m.sections.toList.filter (·.kind = kind)).length ≤ 1 ∧
      ∀ s, m.find? kind = some s ↔ s ∈ m.sections ∧ s.kind = kind) ∧
    (∀ name e, m.findExport? name = some e ↔ m.HasExport e ∧ e.name = name) ∧
    (∀ e e', m.HasExport e → m.HasExport e' → e.name = e'.name → e = e') ∧
    (∀ index name, m.functionName? index = some name → m.findExport? name = some ⟨name, .func, index⟩) ∧
    ∀ e, m.HasExport e → e.kind = .func → ∃ name, m.functionName? e.index = some name := by
  have hvalid : m.Valid := (violations_eq_nil_iff m).1 ((validate_eq_ok_iff m).1 h)
  have hindexed := hm.indexed
  refine ⟨fun kind hcustom hunknown => ⟨hvalid.length_sections_le hcustom hunknown,
    hvalid.find?_eq_some_iff hindexed hcustom hunknown⟩, fun name e => hvalid.findExport?_eq_some_iff hindexed,
    fun e e' => hvalid.export_unique hindexed, fun index name hname => ?_,
    fun e => hvalid.exists_functionName hindexed⟩
  exact (hvalid.findExport?_eq_some_iff hindexed).2 ⟨hvalid.functionName?_eq_some hindexed hname, rfl⟩

/-- Two names for a function and one for a memory, between custom sections of one
name. -/
theorem lookups_of_validate_names :
    let entries : List Export := [⟨"f", .func, 0⟩, ⟨"g", .func, 0⟩, ⟨"m", .memory, 0⟩]
    let sections : List Section := [.custom "c" [1], .exports entries, .custom "c" [2]]
    let m := ofSections "m" sections
    m.validate = .ok () ∧ m.find? .exports = some (.exports entries) ∧
      m.findExport? "g" = some ⟨"g", .func, 0⟩ ∧
      ∃ name, m.functionName? 0 = some name ∧ m.findExport? name = some ⟨name, .func, 0⟩ := by
  intro entries sections m
  have hm : m.Built := built_ofSections "m" sections
  have hmem : ∀ s, s ∈ m.sections ↔ s ∈ sections := by
    intro s
    rw [← Array.mem_toList_iff, toList_sections_ofSections]
  have hvalid : m.validate = .ok () := by
    have hids : m.repeatedIds = [] := by
      rw [repeatedIds, toList_sections_ofSections]
      decide
    have hsound : ∀ s ∈ sections, s.Sound := by decide
    rw [validate_eq_ok_iff, violations_eq_nil_iff]
    refine ⟨fun id hpos hle hrepeats => ?_, fun s hs => hsound s ((hmem s).1 hs)⟩
    have hid := (m.mem_repeatedIds_iff id).2 ⟨hpos, hle, hrepeats⟩
    rw [hids] at hid
    cases hid
  have hexports : .exports entries ∈ m.sections := (hmem _).2 (by simp [sections])
  obtain ⟨hsections, hfind, -, hname, hnamed⟩ := lookups_of_validate hm hvalid
  obtain ⟨name, hfound⟩ := hnamed ⟨"f", .func, 0⟩ ⟨entries, hexports, by decide⟩ rfl
  exact ⟨hvalid, ((hsections .exports (by decide) (by decide)).2 _).2 ⟨hexports, rfl⟩,
    (hfind "g" _).2 ⟨⟨entries, hexports, by decide⟩, rfl⟩, name, hfound, hname _ _ hfound⟩

end Module

end StackVm
