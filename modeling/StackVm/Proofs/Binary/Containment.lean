import StackVm.Proofs.Binary.Encoding
import StackVm.Proofs.Binary.Positions

/-!
# Counts are contained

Counts come from input that nobody vouches for, and yet a section holds no more
than its bytes can pay for (`Section.FitsIn`): an element of a vector takes a byte
at least, and so does the count in front of it. Locals, for which no bytes pay, have
a bound of their own.

For the same reason space is never reserved in vain: where a vector is read to its
end, as many bytes remained as it has elements (`Reservation.Covered`), and so much
space was reserved. `Read.grantOnly` grants space only there, and only for numbers of
elements that are allowed; with it a section is read if and only if it was read before
and its vectors have such lengths (`Section.readWith_grantOnly_iff`). `decode_contained`
is all of this for modules.

* `VectorForm.length_flatMap_lt`: what the elements of a vector are made of is paid for;
* `Read.Narrows`: readers that read just some of the results of others, as those do
  which do not always grant space.
-/

namespace StackVm

open Leb128 (Spells)

/-! ## What bytes pay for -/

section

variable {α β : Type} {form : Form α} {parts : α → List β} {bytes : List UInt8} {entries : List α} {bound : Nat}

/-- No more elements than bytes, if each of them takes one. -/
theorem SequenceForm.length_le (h : SequenceForm form bytes entries)
    (hpos : ∀ front a, form front a → 0 < front.length) : entries.length ≤ bytes.length := by
  have hparts := @length_flatMap_le α form α (fun a => [a]) bytes entries h hpos
  rwa [List.flatMap_singleton'] at hparts

/-- The count of a vector takes a byte too. -/
theorem VectorForm.length_flatMap_lt (h : VectorForm bound form bytes entries)
    (hparts : ∀ front a, form front a → (parts a).length ≤ front.length) (trailing : List UInt8) :
    (entries.flatMap parts).length < (bytes ++ trailing).length := by
  obtain ⟨⟨hcount, -, hback⟩, -⟩ := h
  have hpos := hcount.1.length_pos
  have hle := hback.length_flatMap_le hparts
  simp only [List.length_append]
  omega

theorem VectorForm.length_lt (h : VectorForm bound form bytes entries)
    (hpos : ∀ front a, form front a → 0 < front.length) (trailing : List UInt8) :
    entries.length < (bytes ++ trailing).length := by
  have hparts := @length_flatMap_lt α α form (fun a => [a]) bytes entries bound h hpos trailing
  rwa [List.flatMap_singleton'] at hparts

end

theorem ValueTypeForm.length_pos {bytes : List UInt8} {t : ValueType} (h : ValueTypeForm bytes t) :
    0 < bytes.length := by
  rw [h]
  simp

theorem FunctionTypeForm.length_pos {bytes : List UInt8} {t : FunctionType} (h : FunctionTypeForm bytes t) :
    0 < bytes.length := by
  cases h
  simp

/-- Each value type of a function type takes a byte. -/
theorem FunctionTypeForm.valueTypes_le {bytes : List UInt8} {t : FunctionType} (h : FunctionTypeForm bytes t) :
    (t.parameters ++ t.results).length ≤ bytes.length := by
  obtain @⟨front, back, parameters, results, hparameters, hresults⟩ := h
  have hfront := hparameters.length_lt (fun _ _ => ValueTypeForm.length_pos) []
  have hback := hresults.length_lt (fun _ _ => ValueTypeForm.length_pos) []
  simp only [List.append_nil] at hfront hback
  simp only [List.length_cons, List.length_append]
  omega

theorem LimitForm.length_pos {bytes : List UInt8} {l : Limit} (h : LimitForm bytes l) : 0 < bytes.length := by
  cases h <;> simp

theorem TableForm.length_pos {bytes : List UInt8} {t : Table} (h : TableForm bytes t) : 0 < bytes.length := by
  cases h
  simp

theorem ExportForm.length_pos {bytes : List UInt8} {e : Export} (h : ExportForm bytes e) :
    0 < bytes.length := by
  cases h
  simp only [List.length_append, List.length_cons]
  omega

theorem EntryForm.length_pos {bytes : List UInt8} {f : Function} (h : EntryForm bytes f) :
    0 < bytes.length := by
  obtain ⟨hsize, -, -⟩ := h
  have := hsize.1.length_pos
  simp only [List.length_append]
  omega

theorem EntryForm.body_le {bytes : List UInt8} {f : Function} (h : EntryForm bytes f) :
    f.body.length ≤ bytes.length := by
  obtain ⟨-, -, ⟨-, -⟩, -⟩ := h
  simp only [List.length_append]
  omega

/-- What a section can hold whose content takes `size` bytes: fewer elements, fewer
value types in its signatures altogether, and only shorter bodies. -/
def Section.FitsIn (size : Nat) : Section → Prop
  | types entries => entries.length < size ∧
      (entries.flatMap fun t => t.parameters ++ t.results).length < size
  | functions entries => entries.length < size
  | tables entries => entries.length < size
  | memories entries => entries.length < size
  | exports entries => entries.length < size
  | code entries => entries.length < size ∧ ∀ f ∈ entries, f.body.length < size
  | custom .. | unknown .. => True

theorem ContentForm.fitsIn {id : UInt8} {content : List UInt8} {s : Section} (h : ContentForm id content s) :
    s.FitsIn content.length := by
  cases h with
  | custom | unknown => trivial
  | types hform =>
    exact ⟨hform.length_lt (fun _ _ => FunctionTypeForm.length_pos) _,
      hform.length_flatMap_lt (fun _ _ => FunctionTypeForm.valueTypes_le) _⟩
  | functions hform => exact hform.length_lt (fun _ _ hspells => hspells.1.length_pos) _
  | tables hform => exact hform.length_lt (fun _ _ => TableForm.length_pos) _
  | memories hform => exact hform.length_lt (fun _ _ => LimitForm.length_pos) _
  | exports hform => exact hform.length_lt (fun _ _ => ExportForm.length_pos) _
  | code hform =>
    refine ⟨hform.length_lt (fun _ _ => EntryForm.length_pos) _, fun f hf => ?_⟩
    exact Nat.lt_of_le_of_lt (length_le_length_flatMap hf)
      (hform.length_flatMap_lt (fun _ _ => EntryForm.body_le) _)

/-! ## Space that is reserved -/

/-- The lengths of the vectors in a section. The locals of a function are no vector:
they are declared in runs. -/
def Section.lengths : Section → List Nat
  | types entries => entries.length :: entries.flatMap fun t => [t.parameters.length, t.results.length]
  | functions entries => [entries.length]
  | tables entries => [entries.length]
  | memories entries => [entries.length]
  | exports entries => [entries.length]
  | code entries => [entries.length]
  | custom .. | unknown .. => []

namespace Reservation

/-- With `left` bytes to come, there is a byte for each element, and space is reserved
for just these elements. Where it goes by the bytes that remain, these are the bytes to
come. -/
def Covered (left : Nat) : Reservation → Prop
  | space@(clamped count remaining) => remaining = left ∧ count.toNat ≤ remaining ∧
      Bounds.preallocation count remaining = count.toNat ∧ space.slots = count.toNat
  | space@(whole count) => count.toNat ≤ left ∧ space.slots = count.toNat

instance (left : Nat) : DecidablePred (Covered left)
  | clamped .. => inferInstanceAs (Decidable (_ ∧ _ ∧ _ ∧ _))
  | whole .. => inferInstanceAs (Decidable (_ ∧ _))

theorem covered_clamped_iff {count : UInt32} {left : Nat} :
    (clamped count left).Covered left ↔ count.toNat ≤ left := by
  refine ⟨fun h => h.2.1, fun h => ?_⟩
  exact ⟨rfl, h, Nat.min_eq_left h, Nat.min_eq_left h⟩

theorem covered_whole_iff {count : UInt32} {left : Nat} : (whole count).Covered left ↔ count.toNat ≤ left :=
  ⟨fun h => h.1, fun h => ⟨h, rfl⟩⟩

end Reservation

namespace Read

/-- Grants space only where it is covered, and only for numbers of elements that are
allowed. -/
def grantOnly (allowed : Nat → Bool) : Reserve := fun α space r =>
  if space.Covered r.bytes.length ∧ allowed space.slots then allocate α space r
  else .error (.truncated r.pos) r

variable {α β : Type} {allowed : Nat → Bool} {size : Nat}

theorem grantOnly_eq {space : Reservation} {n : UInt32} {r : Reader}
    (hcovered : space.Covered r.bytes.length ↔ n.toNat ≤ r.bytes.length)
    (hslots : n.toNat ≤ r.bytes.length → space.slots = n.toNat) : grantOnly allowed α space r =
      if n.toNat ≤ r.bytes.length ∧ allowed n.toNat then .ok #[] r else .error (.truncated r.pos) r := by
  have hiff : space.Covered r.bytes.length ∧ allowed space.slots ↔
      n.toNat ≤ r.bytes.length ∧ allowed n.toNat := by
    rw [hcovered]
    exact and_congr_right fun hle => by rw [hslots hle]
  simp only [grantOnly, hiff]
  rfl

/-- Elements that were read are as many as counted, and there were as many bytes. -/
theorem length_of_elements {element : Read α} {form : Form α} (hreads : Reads element form)
    (hpos : ∀ front a, form front a → 0 < front.length) {n : UInt32} {bytes : List UInt8} {pos : Nat}
    {entries : List α} {r : Reader}
    (h : (repeated element n.toNat #[] >>= fun all => pure all.toList) (.clean bytes pos) = .ok entries r) :
    n.toNat = entries.length ∧ n.toNat ≤ bytes.length := by
  obtain ⟨front, rest, rfl, ⟨hlen, hform⟩, -⟩ := (reads_elements hreads n ..).1 h
  have := hform.length_le hpos
  rw [List.length_append]
  omega

/-- From the rest of `size` bytes, `action` reads just those results of `plain` for which
`Q` holds. -/
def Narrows (size : Nat) (plain action : Read α) (Q : α → Prop) : Prop :=
  ∀ bytes pos a r, pos + bytes.length = size →
    (action (.clean bytes pos) = .ok a r ↔ plain (.clean bytes pos) = .ok a r ∧ Q a)

/-- An action narrows itself to what holds of all its results. -/
theorem narrows_self {action : Read α} {Q : α → Prop} (hQ : ∀ r a r', action r = .ok a r' → Q a) :
    Narrows size action action Q :=
  fun _ _ _ _ _ => ⟨fun hok => ⟨hok, hQ _ _ _ hok⟩, And.left⟩

theorem narrows_refl (action : Read α) : Narrows size action action fun _ => True :=
  narrows_self fun _ _ _ _ => trivial

theorem narrows_pure {a : α} {Q : α → Prop} (hQ : Q a) : Narrows size (pure a) (pure a) Q := by
  refine narrows_self fun r b r' hok => ?_
  cases hok
  exact hQ

namespace Narrows

/-- If a result behind `plain` shows that `Q` held of the result of `plain`, then what comes
behind need only be narrowed where `Q` holds. -/
theorem bind {plain action : Read α} {next next' : α → Read β} {form : Form α} {Q : α → Prop} {Q' : β → Prop}
    (hreads : Reads plain form) (h : Narrows size plain action Q)
    (hnext : ∀ a, Q a → Narrows size (next a) (next' a) Q')
    (hshows : ∀ a bytes pos b r, next a (.clean bytes pos) = .ok b r → Q' b → Q a) :
    Narrows size (plain >>= next) (action >>= next') Q' := by
  intro bytes pos b r hsize
  simp only [bind_eq_ok_iff, h bytes pos _ _ hsize]
  constructor
  · rintro ⟨a, r₁, ⟨ha, hQ⟩, hb⟩
    obtain ⟨front, rest, rfl, -, rfl⟩ := (hreads ..).1 ha
    rw [List.length_append, ← Nat.add_assoc] at hsize
    obtain ⟨hb, hQ'⟩ := (hnext a hQ rest _ b r hsize).1 hb
    exact ⟨⟨a, _, ha, hb⟩, hQ'⟩
  · rintro ⟨⟨a, r₁, ha, hb⟩, hQ'⟩
    obtain ⟨front, rest, rfl, -, rfl⟩ := (hreads ..).1 ha
    rw [List.length_append, ← Nat.add_assoc] at hsize
    have hQ := hshows a rest _ b r hb hQ'
    exact ⟨a, _, ⟨ha, hQ⟩, (hnext a hQ rest _ b r hsize).2 ⟨hb, hQ'⟩⟩

/-- Behind an action that is the same for both. -/
theorem behind {action : Read α} {next next' : α → Read β} {form : Form α} {Q : β → Prop}
    (hreads : Reads action form) (hnext : ∀ a, Narrows size (next a) (next' a) Q) :
    Narrows size (action >>= next) (action >>= next') Q :=
  bind hreads (narrows_refl action) (fun a _ => hnext a) fun _ _ _ _ _ _ _ => trivial

theorem position_bind {next next' : Nat → Read β} {Q : β → Prop}
    (h : ∀ offset, Narrows size (next offset) (next' offset) Q) :
    Narrows size (position >>= next) (position >>= next') Q :=
  fun bytes pos => h pos bytes pos

theorem map {plain action : Read α} {Q : α → Prop} {Q' : β → Prop} (h : Narrows size plain action Q) (f : α → β)
    (hQ : ∀ a, Q a ↔ Q' (f a)) : Narrows size (f <$> plain) (f <$> action) Q' := by
  intro bytes pos b r hsize
  simp only [map_eq_pure_bind, bind_eq_ok_iff, h bytes pos _ _ hsize]
  constructor
  · rintro ⟨a, r₁, ⟨ha, hQa⟩, hb⟩
    cases hb
    exact ⟨⟨a, r, ha, rfl⟩, (hQ a).1 hQa⟩
  · rintro ⟨⟨a, r₁, ha, hb⟩, hQb⟩
    cases hb
    exact ⟨a, r, ⟨ha, (hQ a).2 hQb⟩, rfl⟩

/-- An action behind a check that fails if `c` holds. -/
theorem guarded {c : Prop} {_ : Decidable c} {fail fail' plain action : Read α} {Q : α → Prop}
    (hfail : ∀ r a r', fail r ≠ .ok a r') (hfail' : ∀ r a r', fail' r ≠ .ok a r')
    (h : Narrows size plain action Q) :
    Narrows size (if c then fail else plain) (if c then fail' else action) Q := by
  by_cases hc : c
  · intro bytes pos a r _
    simp [hc, hfail, hfail']
  · simpa only [if_neg hc] using h

theorem repeated {element element' : Read α} {form : Form α} {Q : α → Prop} (hreads : Reads element form)
    (h : Narrows size element element' Q) (count : Nat) (done : Array α) (hdone : ∀ a ∈ done, Q a) :
    Narrows size (repeated element count done) (repeated element' count done) fun all => ∀ a ∈ all, Q a := by
  induction count generalizing done with
  | zero => exact narrows_pure hdone
  | succ count ih =>
    refine bind hreads h (fun a hQ => ih (done.push a) fun b hb => ?_) fun a bytes pos all r hok hall => ?_
    · rcases Array.mem_push.1 hb with hb | rfl
      · exact hdone b hb
      · exact hQ
    · obtain ⟨_, _, _, ⟨entries, hentries, -⟩, -⟩ := (reads_repeated hreads count (done.push a) ..).1 hok
      refine hall a (Array.mem_toList_iff.1 ?_)
      rw [hentries]
      exact List.mem_append_left _ (Array.mem_toList_iff.2 Array.mem_push_self)

/-- The elements of a vector, once there is space for them. -/
theorem collected {element element' : Read α} {form : Form α} {Q : α → Prop} (hreads : Reads element form)
    (h : Narrows size element element' Q) (count : Nat) :
    Narrows size (Read.repeated element count #[] >>= fun all => pure all.toList)
      (Read.repeated element' count #[] >>= fun all => pure all.toList) fun entries => ∀ a ∈ entries, Q a := by
  refine bind (reads_repeated hreads count #[]) (h.repeated hreads count #[] nofun) (fun all hall => ?_) ?_
  · exact narrows_pure fun a ha => hall a (Array.mem_toList_iff.1 ha)
  · intro all bytes pos entries r hok hentries a ha
    cases hok
    exact hentries a (Array.mem_toList_iff.2 ha)

/-- The elements of a vector, behind a request for space which is covered if only there
are enough bytes. -/
theorem elements {element element' : Read α} {form : Form α} {Q : α → Prop} (hreads : Reads element form)
    (hpos : ∀ front a, form front a → 0 < front.length) (h : Narrows size element element' Q)
    (n : UInt32) {space : Nat → Reservation} (hcovered : ∀ left, (space left).Covered left ↔ n.toNat ≤ left)
    (hslots : ∀ left, n.toNat ≤ left → (space left).slots = n.toNat) :
    Narrows size (Read.repeated element n.toNat #[] >>= fun all => pure all.toList)
      (remaining size >>= fun left => grantOnly allowed α (space left) >>= fun done =>
        Read.repeated element' n.toNat done >>= fun all => pure all.toList)
      fun entries => allowed entries.length ∧ ∀ a ∈ entries, Q a := by
  intro bytes pos entries r hsize
  have hleft : remaining size (.clean bytes pos) = .ok bytes.length (.clean bytes pos) := by
    rw [remaining, Reader.clean_pos, ← hsize, Nat.add_sub_cancel_left]
  have hgrant := @grantOnly_eq α allowed (space bytes.length) n (.clean bytes pos) (hcovered _) (hslots _)
  rw [Reader.clean_bytes] at hgrant
  by_cases hn : n.toNat ≤ bytes.length ∧ allowed n.toNat
  · rw [if_pos hn] at hgrant
    simp only [Bind.bind, EStateM.bind, hleft, hgrant]
    refine (h.collected hreads n.toNat bytes pos entries r hsize).trans (and_congr_right fun hok => ?_)
    rw [← (length_of_elements hreads hpos hok).1]
    exact (and_iff_right hn.2).symm
  · rw [if_neg hn] at hgrant
    simp only [Bind.bind, EStateM.bind, hleft, hgrant]
    refine iff_of_false nofun ?_
    rintro ⟨hok, hallowed, -⟩
    obtain ⟨hlen, hle⟩ := length_of_elements hreads hpos hok
    exact hn ⟨hle, hlen ▸ hallowed⟩

end Narrows

theorem narrows_vector (kind : SectionKind) (what : Counted) {element element' : Read α} {form : Form α}
    {Q : α → Prop} (hreads : Reads element form) (hpos : ∀ front a, form front a → 0 < front.length)
    (h : Narrows size element element' Q) :
    Narrows size (vector allocate size kind what element) (vector (grantOnly allowed) size kind what element')
      fun entries => allowed entries.length ∧ ∀ a ∈ entries, Q a :=
  .behind (reads_count kind what) fun n =>
    .elements hreads hpos h n (fun _ => Reservation.covered_clamped_iff) fun _ hle => Nat.min_eq_left hle

theorem narrows_sectionVector (kind : SectionKind) (what : Counted) {element element' : Nat → Read α}
    {form : Form α} {Q : α → Prop} (hreads : ∀ size, Reads (element size) form)
    (hpos : ∀ front a, form front a → 0 < front.length)
    (h : ∀ size, Narrows size (element size) (element' size) Q) :
    Narrows size (sectionVector allocate kind what element)
      (sectionVector (grantOnly allowed) kind what element')
      fun entries => allowed entries.length ∧ ∀ a ∈ entries, Q a := by
  rintro bytes pos a r rfl
  exact narrows_vector kind what (hreads _) hpos (h _) bytes pos a r rfl

theorem narrows_functionType (size : Nat) :
    Narrows size (functionType allocate size) (functionType (grantOnly allowed) size)
      fun t => allowed t.parameters.length ∧ allowed t.results.length := by
  have hreads := reads_vector size .types .valueTypes (reads_valueType .types)
  have htypes := @narrows_vector _ allowed size .types .valueTypes _ _ _ _ (reads_valueType .types)
    (fun _ _ => ValueTypeForm.length_pos) (narrows_refl _)
  refine .behind reads_delimiter fun _ => .bind hreads htypes (fun parameters hparameters =>
    .bind hreads htypes (fun results hresults => narrows_pure ⟨hparameters.1, hresults.1⟩) ?_) ?_
  · intro results bytes pos t r hok hallowed
    cases hok
    exact ⟨hallowed.2, fun _ _ => trivial⟩
  · intro parameters bytes pos t r hok hallowed
    obtain ⟨results, r₁, -, ht⟩ := bind_eq_ok_iff.1 hok
    cases ht
    exact ⟨hallowed.1, fun _ _ => trivial⟩

theorem narrows_memories : Narrows size (memories allocate) (memories (grantOnly allowed))
    fun entries => allowed entries.length ∧ ∀ a ∈ entries, True :=
  .position_bind fun _ => .behind reads_unsigned fun n => .guarded (fun _ _ _ => nofun) (fun _ _ _ => nofun) <|
    .elements reads_limit (fun _ _ => LimitForm.length_pos) (narrows_refl _) n
      (fun _ => Reservation.covered_whole_iff) fun _ _ => rfl

/-- A section that is a vector of elements in which no space is reserved. -/
theorem narrows_flatSection (kind : SectionKind) (what : Counted) {element : Read α} {form : Form α}
    {make : List α → Section} (hreads : Reads element form)
    (hpos : ∀ front a, form front a → 0 < front.length)
    (hmake : ∀ entries, (make entries).lengths = [entries.length]) :
    Narrows size (make <$> sectionVector allocate kind what fun _ => element)
      (make <$> sectionVector (grantOnly allowed) kind what fun _ => element)
      fun s => ∀ n ∈ s.lengths, allowed n := by
  have hvector := @narrows_sectionVector _ allowed size kind what _ _ _ _ (fun _ => hreads) hpos
    fun _ => narrows_refl element
  refine hvector.map make fun entries => ?_
  rw [hmake]
  simp

theorem narrows_sectionContent (id : UInt8) (content : List UInt8) :
    Narrows size (sectionContent allocate id content) (sectionContent (grantOnly allowed) id content)
      fun s => ∀ n ∈ s.lengths, allowed n := by
  rw [sectionContent, sectionContent]
  cases SectionKind.ofId id with
  | custom =>
    refine narrows_self fun r s r' hok => ?_
    obtain ⟨name, r₁, -, hok⟩ := bind_eq_ok_iff.1 hok
    obtain ⟨_, r₂, -, hok⟩ := bind_eq_ok_iff.1 hok
    cases hok
    exact fun n hn => absurd hn List.not_mem_nil
  | unknown =>
    refine narrows_self fun r s r' hok => ?_
    rw [map_eq_pure_bind] at hok
    obtain ⟨payload, r₁, -, hok⟩ := bind_eq_ok_iff.1 hok
    cases hok
    exact fun n hn => absurd hn List.not_mem_nil
  | types =>
    refine (narrows_sectionVector _ _ reads_functionType (fun _ _ => FunctionTypeForm.length_pos)
      narrows_functionType).map _ fun entries => ?_
    simp only [Section.lengths, List.forall_mem_cons, List.forall_mem_flatMap, List.not_mem_nil,
      false_implies, implies_true, and_true]
  | functions =>
    exact narrows_flatSection _ _ reads_unsigned (fun _ _ hspells => hspells.1.length_pos) fun _ => rfl
  | tables => exact narrows_flatSection _ _ reads_table (fun _ _ => TableForm.length_pos) fun _ => rfl
  | memories => exact narrows_memories.map _ fun _ => by simp [Section.lengths]
  | exports => exact narrows_flatSection _ _ reads_exportEntry (fun _ _ => ExportForm.length_pos) fun _ => rfl
  | code => exact narrows_flatSection _ _ reads_codeEntry (fun _ _ => EntryForm.length_pos) fun _ => rfl

end Read

/-- Space for a section that can be read is always covered, and the numbers of elements it
is reserved for are the lengths of the vectors in the section. -/
theorem Section.readWith_grantOnly_iff {allowed : Nat → Bool} {id : UInt8} {content : List UInt8} {s : Section}
    {trailing : Nat} : readWith (Read.grantOnly allowed) id content = .ok (s, trailing) ↔
      read id content = .ok (s, trailing) ∧ ∀ n ∈ s.lengths, allowed n := by
  rw [readWith_eq_ok_iff, read_eq_ok_iff]
  simp only [Read.narrows_sectionContent id content content 0 s _ rfl]
  constructor
  · rintro ⟨r, ⟨hok, hallowed⟩, htrailing⟩
    exact ⟨⟨r, hok, htrailing⟩, hallowed⟩
  · rintro ⟨⟨r, hok, htrailing⟩, hallowed⟩
    exact ⟨r, ⟨hok, hallowed⟩, htrailing⟩

/-! ## Decoding -/

/-- The content of every section of a module that was decoded pays for what the
section holds. Its counts respect their bounds, as written and in the section.

Wherever space was reserved, as many bytes remained as there were elements to come, and
it was reserved for all of them: the section is also read if space is granted only then.
It was reserved for every vector of the section and for nothing else: if there are numbers
of elements for which no space is granted, the section is read if and only if none of its
vectors has such a length. -/
theorem decode_contained {bytes : List UInt8} {m : Module} (h : decode bytes = .ok m) :
    m.sections.toList = m.placed.map Prod.fst ∧
    ∀ s span, (s, span) ∈ m.placed → ∃ content trailing, FramedIn bytes span s content ∧
      ContentForm s.id content s ∧ s.FitsIn content.length ∧ s.WellFormed ∧
      Section.read s.id content = .ok (s, trailing) ∧
      Section.readWith (Read.grantOnly fun _ => true) s.id content = .ok (s, trailing) ∧
      ∀ allowed, Section.readWith (Read.grantOnly allowed) s.id content = .ok (s, trailing) ↔
        ∀ n ∈ s.lengths, allowed n := by
  refine ⟨?_, fun s span hs => ?_⟩
  · obtain ⟨_, frames, -, -, hrecords⟩ := exists_framesAt_of_decode h
    rw [hrecords.placed_eq, hrecords.sections_eq, List.map_map]
    rfl
  · obtain ⟨content, hframed⟩ := exists_framedIn_of_decode h hs
    obtain @⟨_, _, _, _, trailing, -, -, -, -, hread⟩ := id hframed
    have hform := Section.contentForm_of_read hread
    have hgranted : ∀ allowed, Section.readWith (Read.grantOnly allowed) s.id content = .ok (s, trailing) ↔
        ∀ n ∈ s.lengths, allowed n :=
      fun _ => Section.readWith_grantOnly_iff.trans (and_iff_right hread)
    exact ⟨content, trailing, hframed, hform, hform.fitsIn, hform.wellFormed.1, hread,
      (hgranted _).2 fun _ _ => rfl, hgranted⟩

/-- A signature, for which space is reserved three times, and a function with three
locals for which a single declaration stands. -/
theorem decode_contained_locals :
    let bytes := opening ++ [1, 7, 1, 0x60, 2, 0x7f, 0x7f, 1, 0x7f, 10, 6, 1, 4, 1, 3, 0x7f, 0x0b]
    let types := Section.types [⟨[.i32, .i32], [.i32]⟩]
    let code := Section.code [⟨[.i32, .i32, .i32], [0x0b]⟩]
    ∃ m, decode bytes = .ok m ∧ m.placed = [(types, ⟨8, 17⟩), (code, ⟨17, 25⟩)] ∧
      (∃ content trailing, FramedIn bytes ⟨8, 17⟩ types content ∧ types.FitsIn content.length ∧
        Section.readWith (Read.grantOnly (· ∈ [1, 2])) 1 content = .ok (types, trailing) ∧
        Section.readWith (Read.grantOnly (· ∈ [1])) 1 content ≠ .ok (types, trailing)) ∧
      ∃ content trailing, FramedIn bytes ⟨17, 25⟩ code content ∧ code.FitsIn content.length ∧
        Section.readWith (Read.grantOnly (· ∈ [1])) 10 content = .ok (code, trailing) := by
  intro bytes types code
  have hdecode : (decode bytes).toOption.map Module.placed = some [(types, ⟨8, 17⟩), (code, ⟨17, 25⟩)] := by
    decide +kernel
  obtain ⟨m, hm, hplaced⟩ := exists_of_toOption_map hdecode
  obtain ⟨-, hcontained⟩ := decode_contained hm
  rw [hplaced] at hcontained
  refine ⟨m, hm, hplaced, ?_, ?_⟩
  · obtain ⟨content, trailing, hframed, -, hfits, -, -, -, hgranted⟩ := hcontained types _ List.mem_cons_self
    refine ⟨content, trailing, hframed, hfits, (hgranted _).2 (by decide), fun hread => ?_⟩
    exact absurd ((hgranted _).1 hread) (by decide)
  · obtain ⟨content, trailing, hframed, -, hfits, -, -, -, hgranted⟩ :=
      hcontained code _ (List.mem_cons_of_mem _ List.mem_cons_self)
    exact ⟨content, trailing, hframed, hfits, (hgranted _).2 (by decide)⟩

-- A count of five in front of two bytes: refused where space is asked for, and by
-- `Section.read` not before the bytes end.
example : Section.readWith (Read.grantOnly fun _ => true) 3 [5, 0, 0] = .error (.truncated 1) ∧
    Section.read 3 [5, 0, 0] = .error (.truncated 3) :=
  ⟨rfl, rfl⟩

end StackVm
