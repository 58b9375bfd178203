import Mathlib.Data.List.Basic
import StackVm.Interpreter
import StackVm.Proofs.Binary.Decoding

/-!
# Looking up sections

A module is built by pushing sections (`Module.Built`), whether they were decoded
or given as a list, and every push keeps its index leading to its sections
(`Module.Indexed`). So the section of a kind that counts is the last one of the
kind (`Module.Indexed.find?_eq_some_iff`), and what a module exports under a name,
and an interpreter executes, is found from its sections alone
(`Module.Indexed.findExport?_eq_some_iff`, `Module.Indexed.startFunction_eq`,
`Interpreter.execute_of_startFunction`).
-/

namespace StackVm

namespace Module

/-- The index leads to the sections of each kind, and to no place without a
section. -/
structure Indexed (m : Module) : Prop where
  places_lt : ∀ kind, ∀ i ∈ (m.places kind).toList, i < m.sections.size
  sectionsOf_eq : ∀ kind, m.sectionsOf kind = m.sections.toList.filter (·.kind = kind)

theorem indexed_empty (name : String) : (empty name).Indexed where
  places_lt kind i hi := by simp [empty, places] at hi
  sectionsOf_eq kind := by simp [empty, sectionsOf, places]

theorem places_push (m : Module) (s : Section) (span : Span) (kind : SectionKind) :
    (m.push s span).places kind =
      if s.kind = kind then (m.places kind).push m.sections.size else m.places kind := by
  rw [places, push, Std.HashMap.getD_insert]
  simp only [beq_iff_eq]
  by_cases hkind : s.kind = kind
  · rw [if_pos hkind, if_pos hkind, hkind]
  · rw [if_neg hkind, if_neg hkind]
    rfl

theorem Indexed.push {m : Module} (h : m.Indexed) (s : Section) (span : Span) : (m.push s span).Indexed := by
  have hsize : (m.push s span).sections.size = m.sections.size + 1 := Array.size_push _
  -- the sections that the module had stay where they were
  have hold : ∀ kind, (m.places kind).toList.filterMap ((m.push s span).sections[·]?) = m.sectionsOf kind := by
    intro kind
    refine List.filterMap_congr fun i hi => ?_
    rw [Module.push, Array.getElem?_push, if_neg (Nat.ne_of_lt (h.places_lt kind i hi))]
  constructor
  · intro kind i hi
    rw [places_push] at hi
    rw [hsize]
    by_cases hkind : s.kind = kind
    · rw [if_pos hkind, Array.toList_push, List.mem_append, List.mem_singleton] at hi
      rcases hi with hi | rfl
      · exact Nat.lt_succ_of_lt (h.places_lt kind i hi)
      · exact Nat.lt_succ_self _
    · rw [if_neg hkind] at hi
      exact Nat.lt_succ_of_lt (h.places_lt kind i hi)
  · intro kind
    have hsections : (m.push s span).sections.toList = m.sections.toList ++ [s] := Array.toList_push ..
    rw [sectionsOf, places_push, hsections, List.filter_append, ← h.sectionsOf_eq, ← hold]
    by_cases hkind : s.kind = kind
    · have hlast : (m.push s span).sections[m.sections.size]? = some s := Array.getElem?_push_size
      rw [if_pos hkind, Array.toList_push, List.filterMap_append]
      simp [hlast, hkind]
    · rw [if_neg hkind]
      simp [hkind]

/-- The modules that can be built: sections are pushed, one after another. -/
inductive Built : Module → Prop
  | empty (name : String) : Built (.empty name)
  | push {m : Module} (h : Built m) (s : Section) (span : Span) : Built (m.push s span)

theorem Built.indexed {m : Module} (h : m.Built) : m.Indexed := by
  induction h with
  | empty name => exact indexed_empty name
  | push _ s span ih => exact ih.push s span

theorem Built.foldl_push {α : Type} (content : α → Section) (span : α → Span) (entries : List α) {m : Module}
    (h : m.Built) : (entries.foldl (fun m a => m.push (content a) (span a)) m).Built := by
  induction entries generalizing m with
  | nil => exact h
  | cons a entries ih => exact ih (h.push (content a) (span a))

theorem built_ofSections (name : String) (sections : List Section) : (ofSections name sections).Built :=
  (Built.empty name).foldl_push id (fun _ => ⟨0, 0⟩) sections

theorem indexed_ofSections (name : String) (sections : List Section) : (ofSections name sections).Indexed :=
  (built_ofSections name sections).indexed

/-- The section that a lookup gives is the last one of its kind. -/
theorem Indexed.find?_eq {m : Module} (h : m.Indexed) (kind : SectionKind) :
    m.find? kind = (m.sections.toList.filter (·.kind = kind)).getLast? := by
  rw [← h.sectionsOf_eq, find?, sectionsOf, ← Array.getLast?_toList]
  have hlt := h.places_lt kind
  rcases List.eq_nil_or_concat (m.places kind).toList with hplaces | ⟨front, i, hplaces⟩
  · rw [hplaces]
    rfl
  · rw [hplaces] at hlt ⊢
    have hi : i < m.sections.size := hlt i (by simp)
    simp [List.filterMap_append, Array.getElem?_eq_getElem hi]

end Module

theorem built_of_decodeNamed {name : String} {source : Source} {m : Module} (h : decodeNamed name source = .ok m) :
    m.Built := by
  obtain ⟨-, rfl⟩ := Scan.module?_eq_ok_iff.1 h
  rw [Scan.toModule, ← Array.foldl_toList]
  exact (Module.Built.empty _).foldl_push Framed.content Framed.span _

theorem built_of_decode {bytes : List UInt8} {m : Module} (h : decode bytes = .ok m) : m.Built :=
  built_of_decodeNamed h

theorem indexed_of_decode {bytes : List UInt8} {m : Module} (h : decode bytes = .ok m) : m.Indexed :=
  (built_of_decode h).indexed

namespace Module

/-! ## What counts -/

/-- The section is the last one of its kind. -/
def Last (m : Module) (s : Section) : Prop :=
  ∃ before after, m.sections.toList = before ++ s :: after ∧ ∀ other ∈ after, other.kind ≠ s.kind

/-- The entry is the first one of the name in the last section of exports. -/
def Exports (m : Module) (name : String) (e : Export) : Prop :=
  ∃ entries, m.Last (.exports entries) ∧ e.name = name ∧
    ∃ before after, entries = before ++ e :: after ∧ ∀ other ∈ before, other.name ≠ name

theorem Indexed.find?_eq_some_iff {m : Module} (h : m.Indexed) {kind : SectionKind} {s : Section} :
    m.find? kind = some s ↔ s.kind = kind ∧ m.Last s := by
  rw [h.find?_eq, List.getLast?_eq_head?_reverse, ← List.filter_reverse, List.head?_filter,
    List.find?_eq_some_iff_append]
  simp only [decide_eq_true_eq, Bool.not_eq_true', decide_eq_false_iff_not]
  refine and_congr_right fun hkind => ?_
  constructor
  · rintro ⟨after, before, hsections, hother⟩
    refine ⟨before.reverse, after.reverse, ?_, fun other hmem => ?_⟩
    · rw [← List.reverse_reverse m.sections.toList, hsections]
      simp
    · rw [hkind]
      exact hother other (List.mem_reverse.1 hmem)
  · rintro ⟨before, after, hsections, hother⟩
    refine ⟨after.reverse, before.reverse, ?_, fun other hmem => ?_⟩
    · rw [hsections]
      simp
    · rw [← hkind]
      exact hother other (List.mem_reverse.1 hmem)

theorem exports?_eq_some_iff {m : Module} {entries : List Export} :
    m.exports? = some entries ↔ m.find? .exports = some (.exports entries) := by
  rw [exports?]
  split
  · next found hfound => simp [hfound]
  · next hother => simpa using fun hfound => hother _ hfound

theorem code?_eq_some_iff {m : Module} {functions : List Function} :
    m.code? = some functions ↔ m.find? .code = some (.code functions) := by
  rw [code?]
  split
  · next found hfound => simp [hfound]
  · next hother => simpa using fun hfound => hother _ hfound

theorem Indexed.exports?_eq_some_iff {m : Module} (h : m.Indexed) {entries : List Export} :
    m.exports? = some entries ↔ m.Last (.exports entries) := by
  rw [Module.exports?_eq_some_iff, h.find?_eq_some_iff]
  exact and_iff_right rfl

theorem Indexed.code?_eq_some_iff {m : Module} (h : m.Indexed) {functions : List Function} :
    m.code? = some functions ↔ m.Last (.code functions) := by
  rw [Module.code?_eq_some_iff, h.find?_eq_some_iff]
  exact and_iff_right rfl

theorem Indexed.findExport?_eq_some_iff {m : Module} (h : m.Indexed) {name : String} {e : Export} :
    m.findExport? name = some e ↔ m.Exports name e := by
  simp only [findExport?, Option.bind_eq_bind, Option.bind_eq_some_iff, h.exports?_eq_some_iff,
    List.find?_eq_some_iff_append, Exports, beq_iff_eq, Bool.not_eq_true', beq_eq_false_iff_ne, ne_eq]

theorem Indexed.function?_eq_some_iff {m : Module} (h : m.Indexed) {index : UInt32} {f : Function} :
    m.function? index = some f ↔ ∃ functions, m.Last (.code functions) ∧ functions[index.toNat]? = some f := by
  simp only [function?, Option.bind_eq_bind, Option.bind_eq_some_iff, h.code?_eq_some_iff]

theorem Indexed.function?_eq_none_iff {m : Module} (h : m.Indexed) {index : UInt32} :
    m.function? index = none ↔ ∀ functions, m.Last (.code functions) → functions.length ≤ index.toNat := by
  simp only [function?, Option.bind_eq_bind, Option.bind_eq_none_iff, h.code?_eq_some_iff,
    List.getElem?_eq_none_iff]

/-- What a module exports, put by its last sections of exports and of code. -/
theorem Indexed.startFunction_eq {m : Module} (h : m.Indexed) {name : String} {exported : List Export}
    {functions : List Function} {index : UInt32} {f : Function}
    (hexports : (m.sections.toList.filter (·.kind = .exports)).getLast? = some (.exports exported))
    (hcode : (m.sections.toList.filter (·.kind = .code)).getLast? = some (.code functions))
    (hname : exported.find? (·.name == name) = some ⟨name, .func, index⟩)
    (hindex : functions[index.toNat]? = some f) : m.startFunction name = .ok (index, f) := by
  rw [← h.find?_eq] at hexports hcode
  simp only [startFunction, findExport?, exports?, hexports, function?, code?, hcode, Option.bind_eq_bind,
    Option.bind_some, hname, hindex]
  rfl

theorem startFunction_ofSections (moduleName name : String) {functions : List Function} {index : UInt32}
    {f : Function} (hindex : functions[index.toNat]? = some f) :
    (ofSections moduleName [.exports [⟨name, .func, index⟩], .code functions]).startFunction name =
      .ok (index, f) := by
  have hsections := toList_sections_ofSections moduleName [.exports [⟨name, .func, index⟩], .code functions]
  have hname : [(⟨name, .func, index⟩ : Export)].find? (·.name == name) = some ⟨name, .func, index⟩ := by
    simp
  refine (indexed_ofSections moduleName _).startFunction_eq ?_ ?_ hname hindex
  · rw [hsections]
    rfl
  · rw [hsections]
    rfl

end Module

/-! ## Executing what is found -/

/-- Whether something is exported under the name, but nothing that can be
started. -/
def ExecutionError.IsMissingStart : ExecutionError → Prop
  | notFunction .. | noBody .. => True
  | missingFunction _ | fault _ => False

namespace Module

variable {m : Module} {name : String}

theorem startFunction_eq_missingFunction_iff {name' : String} :
    m.startFunction name = .error (.missingFunction name') ↔ name' = name ∧ m.findExport? name = none := by
  rw [startFunction]
  cases m.findExport? name with
  | none => simp [eq_comm]
  | some e =>
    simp only
    split
    · simp
    · split <;> simp

theorem exists_isMissingStart_iff :
    (∃ error, m.startFunction name = .error error ∧ error.IsMissingStart) ↔
      ∃ e, m.findExport? name = some e ∧ (e.kind ≠ .func ∨ m.function? e.index = none) := by
  rw [startFunction]
  cases m.findExport? name with
  | none => simp [ExecutionError.IsMissingStart]
  | some e =>
    simp only
    split
    · next hkind => simp [ExecutionError.IsMissingStart, hkind]
    · next hkind =>
      cases hf : m.function? e.index with
      | none => simp [ExecutionError.IsMissingStart, hf]
      | some f => simpa [hf] using hkind

theorem startFunction_of_findExport? {e : Export} {f : Function} (he : m.findExport? name = some e)
    (hkind : e.kind = .func) (hf : m.function? e.index = some f) : m.startFunction name = .ok (e.index, f) := by
  simp only [startFunction, he, hkind, hf, ne_eq, not_true_eq_false, if_false]

end Module

namespace Interpreter

/-- A configuration that passes the check gives its bounds to the
interpreter. -/
theorem ofConfig_eq_ok {c : Config} (hname : c.startFunction ≠ "") (hdata : 1 ≤ c.dataCapacity)
    (hcall : 1 ≤ c.callCapacity) (hfit : c.initialValues.length ≤ c.dataCapacity) :
    ofConfig c = .ok ⟨c.dataCapacity, c.callCapacity, c.maxInstructions⟩ := by
  have hcheck : c.check = .ok () := by
    rw [Config.check, if_neg (by simpa using hname), if_neg (by omega), if_neg (by omega), if_neg (by omega)]
  rw [ofConfig, hcheck]
  rfl

theorem callCapacity_pos {vm : Interpreter} {c : Config} (h : ofConfig c = .ok vm) : 0 < vm.callCapacity := by
  cases hcheck : c.check with
  | error e =>
    rw [ofConfig, hcheck] at h
    cases h
  | ok _ =>
    rw [ofConfig, hcheck] at h
    rw [Config.check] at hcheck
    split_ifs at hcheck with hname hdata hcall hfit
    cases h
    exact Nat.pos_of_ne_zero hcall

theorem execute_of_startFunction {vm : Interpreter} {m : Module} {c : Config} {index : UInt32} {f : Function}
    (h : m.startFunction c.startFunction = .ok (index, f)) :
    vm.execute m c = (vm.call index f c.initialValues).mapError .fault := by
  rw [execute, h]

/-- What is wrong before a call is wrong with what is exported. -/
theorem execute_eq_error_iff {vm : Interpreter} {m : Module} {c : Config} {error : ExecutionError}
    (herror : ∀ fault, error ≠ .fault fault) : vm.execute m c = .error error ↔ m.startFunction c.startFunction = .error error := by
  cases hstart : m.startFunction c.startFunction with
  | error e => simp [execute, hstart]
  | ok start =>
    rw [execute_of_startFunction hstart]
    cases vm.call start.1 start.2 c.initialValues with
    | error fault => simpa [Except.mapError] using (herror fault).symm
    | ok r => simp [Except.mapError]

theorem execute_of_enter {vm : Interpreter} {m : Module} {c : Config} {index : UInt32} {f : Function} {t : Thread}
    (hstart : m.startFunction c.startFunction = .ok (index, f))
    (henter : vm.enter index f c.initialValues = .ok t) : vm.execute m c =
      match t.run vm.maxInstructions with
      | (.ok (), t) => .ok { values := t.results, executed := t.executed }
      | (.error fault, _) => .error (.fault fault) := by
  rw [execute_of_startFunction hstart, call, henter]
  simp only
  rcases t.run vm.maxInstructions with ⟨_ | _, t'⟩ <;> rfl

end Interpreter

end StackVm
