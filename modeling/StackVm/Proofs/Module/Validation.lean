import Mathlib.Data.List.Duplicate
import Mathlib.Data.List.Forall2
import StackVm.Module.Violation

/-!
# Validation is sound and complete

The rules for modules, said without a way to check them (`Module.Valid`): which
numbers sections may not share, and what a section may hold (`Section.Sound`). A
module passes validation just if it keeps them, and where it does not, everything
that breaks a rule is reported, once and in order (`Module.validate_iff_valid`).

* `firstRepeated_eq_none_iff`, `mem_or_duplicate_of_firstRepeated`: the set of
  names seen so far finds a name that stands twice, if there is one;
* `Section.breach?_eq_none_iff`, `Section.breaks_of_breach?`: a section that
  breaks a rule is charged with one that it breaks;
* `Module.mem_repeatedIds_iff`: the numbers that sections share.
-/

namespace StackVm

/-! ## Names -/

theorem firstRepeated_eq_none_iff (seen : Std.HashSet String) (names : List String) :
    firstRepeated seen names = none ↔ names.Nodup ∧ ∀ name ∈ names, name ∉ seen := by
  induction names generalizing seen with
  | nil => simp [firstRepeated]
  | cons first rest ih =>
    rw [firstRepeated, List.nodup_cons, List.forall_mem_cons]
    by_cases hseen : first ∈ seen
    · simp [Std.HashSet.contains_iff_mem.2 hseen, hseen]
    -- a name behind the first one was not seen before if it is another one
    have hrest : (∀ name ∈ rest, name ∉ seen.insert first) ↔ first ∉ rest ∧ ∀ name ∈ rest, name ∉ seen := by
      simp only [Std.HashSet.mem_insert, beq_iff_eq, not_or]
      constructor
      · intro h
        exact ⟨fun hmem => (h first hmem).1 rfl, fun name hmem => (h name hmem).2⟩
      · rintro ⟨hfirst, h⟩ name hmem
        exact ⟨fun heq => hfirst (heq ▸ hmem), h name hmem⟩
    rw [if_neg (by rwa [Std.HashSet.contains_iff_mem]), ih, hrest]
    exact ⟨fun ⟨hnodup, hfirst, h⟩ => ⟨⟨hfirst, hnodup⟩, hseen, h⟩,
      fun ⟨⟨hfirst, hnodup⟩, _, h⟩ => ⟨hnodup, hfirst, h⟩⟩

theorem mem_or_duplicate_of_firstRepeated {seen : Std.HashSet String} {names : List String} {name : String}
    (h : firstRepeated seen names = some name) :
    (name ∈ seen ∧ name ∈ names) ∨ List.Duplicate name names := by
  induction names generalizing seen with
  | nil => cases h
  | cons first rest ih =>
    rw [firstRepeated] at h
    split at h
    · next hseen =>
      cases h
      exact .inl ⟨Std.HashSet.contains_iff_mem.1 hseen, List.mem_cons_self ..⟩
    · rcases ih h with ⟨hmem, hrest⟩ | hrest
      · rcases Std.HashSet.mem_insert.1 hmem with heq | hmem
        · obtain rfl := beq_iff_eq.1 heq
          exact .inr (List.Mem.duplicate_cons_self hrest)
        · exact .inl ⟨hmem, List.mem_cons_of_mem _ hrest⟩
      · exact .inr (hrest.duplicate_cons first)

/-! ## Sections -/

/-- A limit that has no maximum, or zero for one, or has its minimum below or at
the maximum. -/
def Limit.Ordered (l : Limit) : Prop :=
  ∀ max ∈ l.max, max = 0 ∨ l.min ≤ max

instance : DecidablePred Limit.Ordered := fun l =>
  inferInstanceAs (Decidable (∀ max ∈ l.max, max = 0 ∨ l.min ≤ max))

theorem Limit.breach?_eq_none_iff (l : Limit) : l.breach? = none ↔ l.Ordered := by
  obtain ⟨min, _ | max⟩ := l
  · simp [breach?, Ordered]
  · simp [breach?, Ordered, or_iff_not_imp_left]

/-- The rules for the content of a section. -/
def Section.Sound : Section → Prop
  | memories entries => entries.length ≤ 1 ∧ ∀ l ∈ entries, l.Ordered
  | tables entries => ∀ t ∈ entries, t.limit.Ordered
  | exports entries => (entries.map Export.name).Nodup
  | custom .. | types .. | functions .. | code .. | unknown .. => True

instance : DecidablePred Section.Sound
  | .memories entries => inferInstanceAs (Decidable (entries.length ≤ 1 ∧ ∀ l ∈ entries, l.Ordered))
  | .tables entries => inferInstanceAs (Decidable (∀ t ∈ entries, t.limit.Ordered))
  | .exports entries => inferInstanceAs (Decidable (entries.map Export.name).Nodup)
  | .custom .. | .types .. | .functions .. | .code .. | .unknown .. => .isTrue trivial

/-- The limit has a minimum above the maximum `max`. -/
def Limit.Exceeds (l : Limit) (max : UInt32) : Prop :=
  l.max = some max ∧ max ≠ 0 ∧ max < l.min

/-- How a section breaks the rules. -/
inductive Section.Breaks : Section → Breach → Prop
  | memoryCount {entries : List Limit} :
    1 < entries.length → Breaks (.memories entries) (.memoryCount entries.length)
  | memoryLimit {entries : List Limit} {l : Limit} {max : UInt32} :
    l ∈ entries → l.Exceeds max → Breaks (.memories entries) (.limitOrder l.min max)
  | tableLimit {entries : List Table} {t : Table} {max : UInt32} :
    t ∈ entries → t.limit.Exceeds max → Breaks (.tables entries) (.limitOrder t.limit.min max)
  | exportName {entries : List Export} {name : String} :
    List.Duplicate name (entries.map Export.name) → Breaks (.exports entries) (.repeatedExport name)

theorem Limit.exists_exceeds_of_breach? {l : Limit} {breach : Breach} (h : l.breach? = some breach) :
    ∃ max, l.Exceeds max ∧ breach = .limitOrder l.min max := by
  rw [breach?] at h
  split at h
  · next max hmax =>
    split at h
    · next hexceeds =>
      cases h
      exact ⟨max, ⟨hmax, hexceeds⟩, rfl⟩
    · cases h
  · cases h

namespace Section

/-- A section is charged with nothing just if it keeps the rules. -/
theorem breach?_eq_none_iff (s : Section) : s.breach? = none ↔ s.Sound := by
  cases s with
  | custom | types | functions | code | unknown => simp [breach?, Sound]
  | memories entries =>
    rw [breach?, Sound]
    split
    · next hcount => simp [Nat.not_le_of_lt hcount]
    · next hcount => simp [List.findSome?_eq_none_iff, Limit.breach?_eq_none_iff, Nat.le_of_not_lt hcount]
  | tables entries => simp [breach?, Sound, List.findSome?_eq_none_iff, Limit.breach?_eq_none_iff]
  | exports entries =>
    rw [breach?, Option.map_eq_none_iff, firstRepeated_eq_none_iff, Sound]
    simp

/-- What a section is charged with is so. -/
theorem breaks_of_breach? {s : Section} {breach : Breach} (h : s.breach? = some breach) : s.Breaks breach := by
  cases s with
  | custom | types | functions | code | unknown => cases h
  | memories entries =>
    rw [breach?] at h
    split at h
    · next hcount =>
      cases h
      exact .memoryCount hcount
    · obtain ⟨l, hl, h⟩ := List.exists_of_findSome?_eq_some h
      obtain ⟨max, hexceeds, rfl⟩ := Limit.exists_exceeds_of_breach? h
      exact .memoryLimit hl hexceeds
  | tables entries =>
    obtain ⟨t, ht, h⟩ := List.exists_of_findSome?_eq_some h
    obtain ⟨max, hexceeds, rfl⟩ := Limit.exists_exceeds_of_breach? h
    exact .tableLimit ht hexceeds
  | exports entries =>
    obtain ⟨name, hname, rfl⟩ := Option.map_eq_some_iff.1 h
    rcases mem_or_duplicate_of_firstRepeated hname with ⟨hseen, -⟩ | hduplicate
    · simp at hseen
    · exact .exportName hduplicate

/-- The violation says which rule a section breaks, under the kind that it is. -/
def Reports (s : Section) (v : Violation) : Prop :=
  ∃ breach, s.Breaks breach ∧ v = .invalidSection s.kind breach

/-- Each section that breaks the rules is reported, and no other is. -/
theorem forall₂_reports (sections : List Section) :
    List.Forall₂ Reports (sections.filter (¬ ·.Sound)) (sections.filterMap violation?) := by
  induction sections with
  | nil => exact .nil
  | cons s sections ih =>
    cases hbreach : s.breach? with
    | none =>
      have hsound := (breach?_eq_none_iff s).1 hbreach
      rw [List.filter_cons_of_neg (by simpa using hsound), List.filterMap_cons_none (by simp [violation?, hbreach])]
      exact ih
    | some breach =>
      have hsound : ¬ s.Sound := by simp [← breach?_eq_none_iff, hbreach]
      rw [List.filter_cons_of_pos (by simpa using hsound),
        List.filterMap_cons_some (show s.violation? = some (.invalidSection s.kind breach) by
          simp [violation?, hbreach])]
      exact .cons ⟨breach, breaks_of_breach? hbreach, rfl⟩ ih

end Section

/-! ## Modules -/

namespace Module

/-- Two sections or more have the number. -/
def Repeats (m : Module) (id : UInt8) : Prop :=
  List.Duplicate id (m.sections.toList.map Section.id)

/-- The rules for modules: sections share no number from 1 to 12, and what each
of them holds is in order. -/
structure Valid (m : Module) : Prop where
  unique : ∀ id, 1 ≤ id → id ≤ 12 → ¬ m.Repeats id
  sound : ∀ s ∈ m.sections, s.Sound

theorem mem_uniqueIds_iff (id : UInt8) : id ∈ uniqueIds ↔ 1 ≤ id ∧ id ≤ 12 := by
  simp only [uniqueIds, List.mem_cons, ← UInt8.toNat_inj, UInt8.reduceToNat, List.not_mem_nil, or_false,
    UInt8.le_iff_toNat_le]
  omega

theorem mem_repeatedIds_iff (m : Module) (id : UInt8) :
    id ∈ m.repeatedIds ↔ 1 ≤ id ∧ id ≤ 12 ∧ m.Repeats id := by
  rw [repeatedIds, List.mem_filter, mem_uniqueIds_iff, and_assoc, Repeats, List.duplicate_iff_two_le_count,
    List.count_eq_countP, List.countP_map]
  simp [Function.comp_def, Nat.lt_iff_add_one_le]

theorem sorted_repeatedIds (m : Module) : m.repeatedIds.Pairwise (· < ·) := by
  have huniqueIds : uniqueIds.Pairwise (· < ·) := by decide
  exact huniqueIds.filter _

theorem violations_eq_nil_iff (m : Module) : m.violations = [] ↔ m.Valid := by
  rw [violations, List.append_eq_nil_iff, List.map_eq_nil_iff, List.eq_nil_iff_forall_not_mem,
    List.filterMap_eq_nil_iff]
  simp only [mem_repeatedIds_iff, Section.violation?, Option.map_eq_none_iff, Section.breach?_eq_none_iff,
    Array.mem_toList_iff, not_and]
  exact ⟨fun ⟨hunique, hsound⟩ => ⟨hunique, hsound⟩, fun h => ⟨h.unique, h.sound⟩⟩

theorem validate_eq_ok_iff (m : Module) : m.validate = .ok () ↔ m.violations = [] := by
  rw [validate]
  cases m.violations <;> simp

theorem validate_eq_error_iff (m : Module) (v : Violation) :
    m.validate = .error v ↔ m.violations.head? = some v := by
  rw [validate]
  cases m.violations <;> simp

/-- A module passes validation just if it is valid. Otherwise what is reported are
the numbers from 1 to 12 that sections share, ascending, and then in their order
the sections which break a rule of their own, and validation fails with the first
of it all. -/
theorem validate_iff_valid (m : Module) :
    (m.validate = .ok () ↔ m.Valid) ∧
    (∃ (ids : List UInt8) (reports : List Violation), m.violations = ids.map .duplicateSection ++ reports ∧
      ids.Pairwise (· < ·) ∧ (∀ id, id ∈ ids ↔ 1 ≤ id ∧ id ≤ 12 ∧ m.Repeats id) ∧
      List.Forall₂ Section.Reports (m.sections.toList.filter (¬ ·.Sound)) reports) ∧
    (∀ v, m.validate = .error v ↔ m.violations.head? = some v) ∧
    (m.validate = .ok () ↔ m.violations = []) := by
  refine ⟨?_, ⟨m.repeatedIds, m.sections.toList.filterMap Section.violation?, rfl, m.sorted_repeatedIds,
    m.mem_repeatedIds_iff, Section.forall₂_reports _⟩, m.validate_eq_error_iff, m.validate_eq_ok_iff⟩
  rw [validate_eq_ok_iff, violations_eq_nil_iff]

end Module

end StackVm
