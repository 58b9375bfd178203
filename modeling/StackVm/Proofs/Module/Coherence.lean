import StackVm.Proofs.Binary.Concatenation
import StackVm.Proofs.Module.Lookup

/-!
# The index of a module and its sections

Sections are looked up through an index that every push extends. Whatever is pushed, in
whatever order, the index and the sections say the same (`Module.Coherent`), and nothing
that is looked up is out of range (`Module.lookups_of_pushes`).

* `Module.Built.places_eq`: the index of a kind holds the places of its sections, from
  the first to the last. One push adds the place behind all others, or leaves the index of
  the kind alone;
* `Module.Indexed.opens`: what a typed accessor gives, for all accessors at once.
-/

namespace StackVm

namespace Module

/-- What an accessor found among the sections of a kind, which are made of entries by
`wrap`: something just if there is such a section, and then the entries of the last one. -/
structure Opens (m : Module) (kind : SectionKind) {α : Type} (wrap : α → Section) (found : Option α) : Prop where
  isSome_iff : found.isSome ↔ ∃ s ∈ m.sections, s.kind = kind
  last_eq : found.map wrap = (m.sections.toList.filter (·.kind = kind)).getLast?

/-- The index and the sections of a module say the same: beside each section stands its
range, the places in the index are those of the sections of each kind in order, and
lookups, accessors and the list of custom sections give what stands there. -/
structure Coherent (m : Module) : Prop extends m.Indexed where
  size_spans : m.spans.size = m.sections.size
  places_eq : ∀ kind, (m.places kind).toList =
    (List.range m.sections.size).filter fun i => m.sections[i]?.any (·.kind = kind)
  find?_eq : ∀ kind, m.find? kind = (m.sectionsOf kind).getLast?
  types : m.Opens .types .types m.types?
  functions : m.Opens .functions .functions m.functions?
  tables : m.Opens .tables .tables m.tables?
  memories : m.Opens .memories .memories m.memories?
  exports : m.Opens .exports .exports m.exports?
  code : m.Opens .code .code m.code?
  customs_eq : m.customs.map (fun c => Section.custom c.1 c.2) = m.sections.toList.filter (·.kind = .custom)

variable {m : Module}

/-! ## Pushes -/

theorem Built.size_spans (h : m.Built) : m.spans.size = m.sections.size := by
  induction h with
  | empty name => rfl
  | push _ s span ih => rw [Module.push, Array.size_push, Array.size_push, ih]

theorem Built.places_eq (h : m.Built) (kind : SectionKind) : (m.places kind).toList =
    (List.range m.sections.size).filter fun i => m.sections[i]?.any (·.kind = kind) := by
  induction h with
  | empty name => simp [Module.empty, places]
  | @push m _ s span ih =>
    have hsize : (m.push s span).sections.size = m.sections.size + 1 := Array.size_push _
    have hlast : (m.push s span).sections[m.sections.size]? = some s := Array.getElem?_push_size
    -- the sections that the module had stay where they were
    have hold : (List.range m.sections.size).filter (fun i => (m.push s span).sections[i]?.any (·.kind = kind)) =
        (m.places kind).toList := by
      rw [ih]
      refine List.filter_congr fun i hi => ?_
      rw [Module.push, Array.getElem?_push, if_neg (Nat.ne_of_lt (List.mem_range.1 hi))]
    rw [places_push, hsize, List.range_succ, List.filter_append, hold]
    by_cases hkind : s.kind = kind
    · rw [if_pos hkind, Array.toList_push]
      simp [hlast, hkind]
    · rw [if_neg hkind]
      simp [hlast, hkind]

/-! ## Accessors -/

/-- An accessor opens what the lookup of its kind gives. All sections of the kind are made
by `wrap`, so that there is nothing it could not open. -/
theorem Indexed.opens (h : m.Indexed) {kind : SectionKind} {α : Type} {wrap : α → Section} {found : Option α}
    (hwrap : ∀ s : Section, s.kind = kind → ∃ a, s = wrap a)
    (hsome : ∀ a, m.find? kind = some (wrap a) → found = some a) (hnone : m.find? kind = none → found = none) :
    m.Opens kind wrap found := by
  have hmap : found.map wrap = m.find? kind := by
    cases hfind : m.find? kind with
    | none => rw [hnone hfind, Option.map_none]
    | some s =>
      obtain ⟨a, rfl⟩ := hwrap s (h.find?_eq_some_iff.1 hfind).1
      rw [hsome a hfind, Option.map_some]
  constructor
  · rw [← Option.isSome_map (f := wrap), hmap, h.find?_eq, List.getLast?_isSome]
    simp
  · rw [hmap, h.find?_eq]

theorem Indexed.customs_eq (h : m.Indexed) :
    m.customs.map (fun c => Section.custom c.1 c.2) = m.sections.toList.filter (·.kind = .custom) := by
  rw [customs, List.map_filterMap, ← h.sectionsOf_eq]
  have hall : ∀ s ∈ m.sectionsOf .custom, s.kind = .custom := by
    rw [h.sectionsOf_eq]
    simp
  calc _ = (m.sectionsOf .custom).filterMap some := ?_
    _ = m.sectionsOf .custom := List.filterMap_some
  refine List.filterMap_congr fun s hs => ?_
  match s, hall s hs with
  | .custom name payload, _ => rfl

theorem Built.coherent (h : m.Built) : m.Coherent where
  toIndexed := h.indexed
  size_spans := h.size_spans
  places_eq := h.places_eq
  find?_eq kind := by rw [h.indexed.find?_eq, h.indexed.sectionsOf_eq]
  types := h.indexed.opens (fun | .types entries, _ => ⟨entries, rfl⟩)
    (fun _ hfind => by rw [types?, hfind]) fun hfind => by rw [types?, hfind]
  functions := h.indexed.opens (fun | .functions entries, _ => ⟨entries, rfl⟩)
    (fun _ hfind => by rw [functions?, hfind]) fun hfind => by rw [functions?, hfind]
  tables := h.indexed.opens (fun | .tables entries, _ => ⟨entries, rfl⟩)
    (fun _ hfind => by rw [tables?, hfind]) fun hfind => by rw [tables?, hfind]
  memories := h.indexed.opens (fun | .memories entries, _ => ⟨entries, rfl⟩)
    (fun _ hfind => by rw [memories?, hfind]) fun hfind => by rw [memories?, hfind]
  exports := h.indexed.opens (fun | .exports entries, _ => ⟨entries, rfl⟩)
    (fun _ hfind => by rw [exports?, hfind]) fun hfind => by rw [exports?, hfind]
  code := h.indexed.opens (fun | .code entries, _ => ⟨entries, rfl⟩)
    (fun _ hfind => by rw [code?, hfind]) fun hfind => by rw [code?, hfind]
  customs_eq := h.indexed.customs_eq

/-! ## Modules -/

/-- A module that sections are pushed into holds them in order, each beside its range, and
its index is coherent with them. This goes for modules of given sections and for modules
that are decoded from any source. -/
theorem lookups_of_pushes :
    (∀ (name : String) (pushed : List (Section × Span)),
      let m := pushed.foldl (fun m p => m.push p.1 p.2) (empty name)
      m.sections.toList = pushed.map Prod.fst ∧ m.spans.toList = pushed.map Prod.snd ∧ m.Coherent) ∧
    (∀ (name : String) (sections : List Section), (ofSections name sections).sections.toList = sections ∧
      (ofSections name sections).Coherent) ∧
    ∀ (name : String) (source : Source) (m : Module), decodeNamed name source = .ok m → m.Coherent := by
  refine ⟨fun name pushed => ⟨?_, ?_, ?_⟩, fun name sections => ⟨?_, ?_⟩, fun name source m hm => ?_⟩
  · exact toList_sections_foldl_push Prod.fst Prod.snd pushed (empty name)
  · exact toList_spans_foldl_push Prod.fst Prod.snd pushed (empty name)
  · exact ((Built.empty name).foldl_push Prod.fst Prod.snd pushed).coherent
  · exact toList_sections_ofSections name sections
  · exact (built_ofSections name sections).coherent
  · exact (built_of_decodeNamed hm).coherent

/-- Two memory sections with custom sections around them: the second memory section is the
one that counts, and the custom sections are all there. -/
theorem lookups_of_pushes_repeated :
    let bytes := opening ++ [0, 2, 1, 0x61, 5, 3, 1, 0, 2, 0, 3, 1, 0x62, 7, 5, 4, 1, 1, 3, 4, 0, 2, 1, 0x61]
    ∃ m, decode bytes = .ok m ∧ (m.places .memories).toList = [1, 3] ∧
      m.find? .memories = some (.memories [⟨3, some 4⟩]) ∧ m.memories? = some [⟨3, some 4⟩] ∧ m.code? = none ∧
      m.customs.map (fun c => Section.custom c.1 c.2) =
        [.custom "a" [1, 0x61], .custom "b" [1, 0x62, 7], .custom "a" [1, 0x61]] := by
  intro bytes
  have hdecode : (decode bytes).toOption.map (·.sections) = some #[.custom "a" [1, 0x61], .memories [⟨2, none⟩],
      .custom "b" [1, 0x62, 7], .memories [⟨3, some 4⟩], .custom "a" [1, 0x61]] := by
    decide +kernel
  obtain ⟨m, hm, hsections⟩ := exists_of_toOption_map hdecode
  have hcoherent := lookups_of_pushes.2.2 "module" (.ofBytes bytes) m hm
  have hmemories := hcoherent.memories.last_eq
  have hcode := hcoherent.code.last_eq
  rw [hsections] at hmemories hcode
  obtain ⟨_, hfound, hentries⟩ := Option.map_eq_some_iff.1 hmemories
  cases hentries
  refine ⟨m, hm, ?_, ?_, hfound, Option.map_eq_none_iff.1 hcode, ?_⟩
  · rw [hcoherent.places_eq, hsections]
    decide
  · rw [hcoherent.find?_eq, hcoherent.sectionsOf_eq, hsections]
    rfl
  · rw [hcoherent.customs_eq, hsections]
    rfl

end Module

end StackVm
