import StackVm.Binary.Reader
import StackVm.Proofs.Binary.Grammar

/-!
# Actions that read forms

`Reads action form` says that an action reads just the forms of its results:
from a source that ends cleanly it returns `a` if and only if a form of `a`
stands at the front, and it takes that form and nothing else. `ReadsAll` says
the same of an action that reads up to the end.

The two compose (`Reads.bind`, `Reads.bindAll`, `Reads.repeated`), so that
what a reader accepts is found from what its parts accept, soundness and
completeness at once.
-/

namespace StackVm

/-- The reader that is `pos` bytes into a source which ends cleanly after
`bytes`. -/
def Reader.clean (bytes : List UInt8) (pos : Nat) : Reader :=
  { bytes, failure := none, pos }

@[simp] theorem Reader.clean_bytes (bytes : List UInt8) (pos : Nat) : (clean bytes pos).bytes = bytes := rfl
@[simp] theorem Reader.clean_failure (bytes : List UInt8) (pos : Nat) :
    (clean bytes pos).failure = none := rfl
@[simp] theorem Reader.clean_pos (bytes : List UInt8) (pos : Nat) : (clean bytes pos).pos = pos := rfl

theorem Reader.ofBytes_eq (bytes : List UInt8) : ofBytes bytes = clean bytes 0 := rfl

/-- Two forms one after another, of which the second may depend on the value of
the first. -/
def Form.andThen {α β : Type} (first : Form α) (second : α → Form β) : Form β := fun bytes b =>
  ∃ a front back, bytes = front ++ back ∧ first front a ∧ second a back b

namespace Read

variable {α β : Type}

/-- The action reads just the forms of its results. -/
def Reads (action : Read α) (form : Form α) : Prop :=
  ∀ bytes pos a r, action (.clean bytes pos) = .ok a r ↔
    ∃ front rest, bytes = front ++ rest ∧ form front a ∧ r = .clean rest (pos + front.length)

/-- The action reads the whole source as a form of its result. -/
def ReadsAll (action : Read α) (form : Form α) : Prop :=
  ∀ bytes pos a r, action (.clean bytes pos) = .ok a r ↔
    form bytes a ∧ r = .clean [] (pos + bytes.length)

theorem bind_eq_ok_iff {action : Read α} {next : α → Read β} {r r' : Reader} {b : β} :
    (action >>= next) r = .ok b r' ↔ ∃ a r₁, action r = .ok a r₁ ∧ next a r₁ = .ok b r' := by
  constructor
  · intro h
    simp only [bind, EStateM.bind] at h
    split at h
    · next a r₁ ha => exact ⟨a, r₁, ha, h⟩
    · cases h
  · rintro ⟨a, r₁, ha, hb⟩
    simp only [bind, EStateM.bind, ha, hb]

namespace Reads

theorem congr {action : Read α} {form form' : Form α} (h : Reads action form)
    (hform : ∀ bytes a, form bytes a ↔ form' bytes a) : Reads action form' := by
  intro bytes pos a r
  simp only [h bytes pos a r, hform]

theorem bind {action : Read α} {next : α → Read β} {first : Form α} {second : α → Form β}
    (h₁ : Reads action first) (h₂ : ∀ a, Reads (next a) (second a)) :
    Reads (action >>= next) (first.andThen second) := by
  intro bytes pos b r
  rw [bind_eq_ok_iff]
  constructor
  · rintro ⟨a, r₁, ha, hb⟩
    obtain ⟨front, rest, rfl, hfront, rfl⟩ := (h₁ ..).1 ha
    obtain ⟨back, rest, rfl, hback, rfl⟩ := (h₂ ..).1 hb
    refine ⟨front ++ back, rest, by rw [List.append_assoc], ⟨a, front, back, rfl, hfront, hback⟩, ?_⟩
    rw [List.length_append, Nat.add_assoc]
  · rintro ⟨_, rest, rfl, ⟨a, front, back, rfl, hfront, hback⟩, rfl⟩
    refine ⟨a, _, (h₁ ..).2 ⟨front, back ++ rest, by rw [List.append_assoc], hfront, rfl⟩, ?_⟩
    rw [h₂]
    exact ⟨back, rest, rfl, hback, by rw [List.length_append, Nat.add_assoc]⟩

theorem bindAll {action : Read α} {next : α → Read β} {first : Form α} {second : α → Form β}
    (h₁ : Reads action first) (h₂ : ∀ a, ReadsAll (next a) (second a)) :
    ReadsAll (action >>= next) (first.andThen second) := by
  intro bytes pos b r
  rw [bind_eq_ok_iff]
  constructor
  · rintro ⟨a, r₁, ha, hb⟩
    obtain ⟨front, rest, rfl, hfront, rfl⟩ := (h₁ ..).1 ha
    obtain ⟨hback, rfl⟩ := (h₂ ..).1 hb
    exact ⟨⟨a, front, rest, rfl, hfront, hback⟩, by rw [List.length_append, Nat.add_assoc]⟩
  · rintro ⟨⟨a, front, back, rfl, hfront, hback⟩, rfl⟩
    refine ⟨a, _, (h₁ ..).2 ⟨front, back, rfl, hfront, rfl⟩, (h₂ ..).2 ⟨hback, ?_⟩⟩
    rw [List.length_append, Nat.add_assoc]

/-- An action that only looks at the reader takes nothing. -/
theorem look_bind {action : Read α} {next : α → Read β} {form : Form β}
    (hlook : ∀ r, ∃ a, action r = .ok a r) (h : ∀ a, Reads (next a) form) :
    Reads (action >>= next) form := by
  intro bytes pos b r
  obtain ⟨a, ha⟩ := hlook (.clean bytes pos)
  rw [← h a bytes pos b r]
  simp only [Bind.bind, EStateM.bind, ha]

theorem position_bind {next : Nat → Read β} {form : Form β} (h : ∀ offset, Reads (next offset) form) :
    Reads (position >>= next) form :=
  look_bind (fun r => ⟨r.pos, rfl⟩) h

/-- An action behind a check that fails if `c` holds. -/
theorem guarded {c : Prop} {_ : Decidable c} {fail next : Read β} {form : Form β}
    (h : ¬ c → Reads next form) (hfail : ∀ r b r', fail r ≠ .ok b r') :
    Reads (if c then fail else next) fun bytes b => ¬ c ∧ form bytes b := by
  intro bytes pos b r
  by_cases hc : c
  · simp [hc, hfail]
  · simp [hc, h hc bytes pos b r]

theorem ite {c : Prop} {_ : Decidable c} {action other : Read β} {form form' : Form β}
    (h₁ : Reads action form) (h₂ : Reads other form') :
    Reads (if c then action else other) fun bytes b => if c then form bytes b else form' bytes b := by
  by_cases hc : c
  · simpa [hc] using h₁
  · simpa [hc] using h₂

theorem map {action : Read α} {form : Form α} (h : Reads action form) (f : α → β) :
    Reads (f <$> action) fun bytes b => ∃ a, form bytes a ∧ b = f a := by
  intro bytes pos b r
  have hmap : (f <$> action) (.clean bytes pos) = .ok b r ↔
      ∃ a, action (.clean bytes pos) = .ok a r ∧ b = f a := by
    simp only [Functor.map, EStateM.map]
    cases action (.clean bytes pos) with
    | ok a r₁ => simp; grind
    | error e r₁ => simp
  rw [hmap]
  constructor
  · rintro ⟨a, ha, rfl⟩
    obtain ⟨front, rest, rfl, hfront, rfl⟩ := (h ..).1 ha
    exact ⟨front, rest, rfl, ⟨a, hfront, rfl⟩, rfl⟩
  · rintro ⟨front, rest, rfl, ⟨a, hfront, rfl⟩, rfl⟩
    exact ⟨a, (h ..).2 ⟨front, rest, rfl, hfront, rfl⟩, rfl⟩

end Reads

/-- Reading up to the end, then making something of what was read. -/
theorem ReadsAll.map {action : Read α} {form : Form α} (h : ReadsAll action form) (f : α → β) :
    ReadsAll (action >>= fun a => pure (f a)) fun bytes b => ∃ a, form bytes a ∧ b = f a := by
  intro bytes pos b r
  rw [bind_eq_ok_iff]
  constructor
  · rintro ⟨a, r₁, ha, hb⟩
    cases hb
    obtain ⟨hform, hr⟩ := (h ..).1 ha
    exact ⟨⟨a, hform, rfl⟩, hr⟩
  · rintro ⟨⟨a, hform, rfl⟩, hr⟩
    exact ⟨a, r, (h ..).2 ⟨hform, hr⟩, rfl⟩

/-- Reading a byte string of its own. -/
theorem ReadsAll.onBytes_eq_ok_iff {action : Read α} {form : Form α} (h : ReadsAll action form)
    {bytes : List UInt8} {a : α} : action.onBytes bytes = .ok a ↔ form bytes a := by
  rw [onBytes, Reader.ofBytes_eq]
  constructor
  · intro ha
    split at ha
    · next b r hb =>
      cases ha
      exact ((h ..).1 hb).1
    · cases ha
  · intro hform
    rw [(h ..).2 ⟨hform, rfl⟩]

/-! ## Bytes and integers -/

theorem reads_pure (a : α) : Reads (pure a) fun bytes b => bytes = [] ∧ b = a := by
  intro bytes pos b r
  constructor
  · intro h
    cases h
    exact ⟨[], bytes, rfl, ⟨rfl, rfl⟩, rfl⟩
  · rintro ⟨_, rest, rfl, ⟨rfl, rfl⟩, rfl⟩
    rfl

theorem reads_ofOption (o : Option α) {fallback : Read α} (hfail : ∀ r a r', fallback r ≠ .ok a r') :
    Reads (ofOption o fallback) fun bytes a => bytes = [] ∧ o = some a := by
  cases o with
  | none =>
    intro bytes pos a r
    simp [ofOption, hfail]
  | some a => exact (reads_pure a).congr fun bytes b => by rw [Option.some.injEq, eq_comm (a := a)]

theorem reads_ofOption_reject (o : Option α) {kind : SectionKind} {offset : Nat} {fault : SectionFault} :
    Reads (ofOption o (reject kind offset fault)) fun bytes a => bytes = [] ∧ o = some a :=
  reads_ofOption o fun _ _ _ => nofun

theorem reads_ofPart (base : Nat) (outcome : Except DecodeError α) :
    Reads (ofPart base outcome) fun bytes a => bytes = [] ∧ outcome = .ok a := by
  cases outcome with
  | ok a => exact (reads_pure a).congr fun bytes b => by rw [Except.ok.injEq, eq_comm (a := a)]
  | error e =>
    intro bytes pos a r
    refine iff_of_false nofun ?_
    intro h
    obtain ⟨_, _, _, ⟨_, hok⟩, _⟩ := h
    cases hok

theorem reads_byte : Reads byte fun bytes b => bytes = [b] := by
  intro bytes pos b r
  cases bytes with
  | nil => simp [byte]
  | cons c bytes =>
    simp only [byte, Reader.clean_bytes, Reader.clean_pos]
    constructor
    · intro h
      cases h
      exact ⟨[b], bytes, rfl, rfl, rfl⟩
    · rintro ⟨_, rest, h, rfl, rfl⟩
      cases h
      rfl

theorem reads_take (count : Nat) : Reads (take count) fun bytes a => bytes = a ∧ a.length = count := by
  intro bytes pos a r
  constructor
  · intro h
    by_cases hlen : (bytes.take count).length = count
    · simp only [take, Reader.clean_bytes, Reader.clean_failure, Reader.clean_pos, hlen, ↓reduceIte] at h
      cases h
      exact ⟨bytes.take count, bytes.drop count, (List.take_append_drop ..).symm, ⟨rfl, hlen⟩,
        by rw [hlen]; rfl⟩
    · simp only [take, Reader.clean_bytes, Reader.clean_failure, hlen, ↓reduceIte] at h
      cases h
  · rintro ⟨_, rest, rfl, ⟨rfl, rfl⟩, rfl⟩
    simp [take, Reader.clean]

theorem readsAll_toEnd : ReadsAll toEnd fun bytes a => a = bytes := by
  intro bytes pos a r
  constructor
  · intro h
    cases h
    exact ⟨rfl, rfl⟩
  · rintro ⟨rfl, rfl⟩
    rfl

/-- The groups that are read are those of the numeral at the front, whatever the source
does behind it. -/
theorem groups_eq_ok_iff {r r' : Reader} {g : Leb128.Groups} : groups r = .ok g r' ↔
    ∃ num rest, Leb128.Numeral num ∧ r.bytes = num ++ rest ∧ g = .ofNumeral num rest ∧
      r' = { r with bytes := rest, pos := r.pos + num.length } := by
  rw [groups]
  constructor
  · intro h
    split at h
    · next hread =>
      obtain ⟨num, rest, hnum, hbytes, rfl⟩ := Leb128.read_eq_some_iff.1 hread
      cases h
      exact ⟨num, rest, hnum, hbytes, rfl, rfl⟩
    · cases h
  · rintro ⟨num, rest, hnum, hbytes, rfl, rfl⟩
    rw [hbytes, Leb128.read_append hnum]
    rfl

theorem reads_unsigned : Reads unsigned Leb128.Spells := by
  intro bytes pos v r
  simp only [unsigned, bind_eq_ok_iff, groups_eq_ok_iff, Reader.clean_bytes, Reader.clean_pos]
  constructor
  · rintro ⟨_, _, ⟨num, rest, hnum, rfl, rfl, rfl⟩, hv⟩
    cases hv
    exact ⟨num, rest, rfl, Leb128.spells_ofNumeral hnum rest, rfl⟩
  · rintro ⟨num, rest, rfl, hnum, rfl⟩
    refine ⟨_, _, ⟨num, rest, hnum.1, rfl, rfl, rfl⟩, ?_⟩
    rw [hnum.unsigned_eq]
    rfl

/-! ## Repetition -/

theorem reads_repeated {element : Read α} {form : Form α} (h : Reads element form) (count : Nat)
    (done : Array α) :
    Reads (repeated element count done) fun bytes all =>
      ∃ entries, all.toList = done.toList ++ entries ∧ entries.length = count ∧
        SequenceForm form bytes entries := by
  induction count generalizing done with
  | zero =>
    refine (reads_pure done).congr fun bytes all => ?_
    constructor
    · rintro ⟨rfl, rfl⟩
      exact ⟨[], (List.append_nil _).symm, rfl, .nil⟩
    · rintro ⟨entries, hall, hlen, hform⟩
      cases List.length_eq_zero_iff.1 hlen
      cases hform
      exact ⟨rfl, Array.toList_inj.1 (by rw [hall, List.append_nil])⟩
  | succ count ih =>
    refine (h.bind fun a => ih (done.push a)).congr fun bytes all => ?_
    constructor
    · rintro ⟨a, front, back, rfl, hfront, entries, hall, rfl, hback⟩
      rw [Array.toList_push, List.append_assoc] at hall
      exact ⟨a :: entries, hall, rfl, .cons hfront hback⟩
    · rintro ⟨entries, hall, hlen, hform⟩
      cases hform with
      | nil => cases hlen
      | @cons front back a entries hfront hback =>
        refine ⟨a, front, back, rfl, hfront, entries, ?_, Nat.succ.inj hlen, hback⟩
        rw [hall, Array.toList_push, List.append_assoc, List.singleton_append]

end Read

end StackVm
