import StackVm.Proofs.Binary.Frames

/-!
# What is held against a content

The contents that are read as sections have a grammar; so have the contents that are
refused. `Refusal` says what may be held against the content of a section, and behind
which bytes: a vector is refused for its count, or for an element that stands behind
the count and behind complete elements (`Partway`), and the entry of a function in the
code section is refused for what is wrong with the function alone
(`FunctionRefusal`), at a place that counts from the start of the content.

Readers are related to this by triples. `Refuses before action refusal` says that
whatever `action` fails for, behind bytes that satisfy `before`, is a refusal of the
whole; the failures of a reader are found from those of its parts
(`Refuses.bind`, `Refuses.repeated`), since it is known what its parts read.

* `Read.refuses_vector`: the failures of a vector;
* `Section.refusal_of_read`: a content that is not read is refused by the grammar.
-/

namespace StackVm

open Leb128 (Spells)

/-! ## The grammar of refusals -/

/-- The front of a vector, up to an element: the count, and the elements before that
one. -/
inductive Partway {α : Type} (element : Form α) : List UInt8 → List α → Prop
  | intro {front back : List UInt8} {count : UInt32} {entries : List α} :
    Spells front count → entries.length < count.toNat → SequenceForm element back entries →
      Partway element (front ++ back) entries

/-- The front of a type section, up to the parameters or the results of a signature. -/
inductive SignatureFront : List UInt8 → Prop
  | parameters {front : List UInt8} {entries : List FunctionType} :
    Partway FunctionTypeForm front entries → SignatureFront (front ++ [0x60])
  | results {front back : List UInt8} {entries : List FunctionType} {parameters : List ValueType} :
    Partway FunctionTypeForm front entries →
    VectorForm Counted.valueTypes.limit ValueTypeForm back parameters →
      SignatureFront (front ++ [0x60] ++ back)

/-- A length, and so many bytes that are not UTF-8. -/
inductive Misnamed : List UInt8 → Prop
  | intro {front text rest : List UInt8} {length : UInt32} :
    Spells front length → length.toNat = text.length → Utf8.decode? text = none →
      Misnamed (front ++ (text ++ rest))

/-- What may be held against the entry of a function: it ends too early, or behind
some declarations there are too many locals or there is no type. -/
inductive FunctionRefusal : List UInt8 → DecodeError → Prop
  | ending {entry : List UInt8} : FunctionRefusal entry (.truncated entry.length)
  | locals {front num rest : List UInt8} {n : UInt32} {runs : List (Nat × ValueType)} :
    Partway DeclarationForm front runs → Spells num n → (expandRuns runs).length ≤ Bounds.locals →
    Bounds.locals < (expandRuns runs).length + n.toNat →
      FunctionRefusal (front ++ (num ++ rest)) (.invalidSection .code front.length .tooManyLocals)
  | valueType {front num rest : List UInt8} {n : UInt32} {runs : List (Nat × ValueType)} {code : UInt8} :
    Partway DeclarationForm front runs → Spells num n → ValueType.ofByte? code = none →
      FunctionRefusal (front ++ num ++ code :: rest)
        (.invalidSection .code (front ++ num).length (.valueType code))

/-- The kind of section in which so many of something stand. -/
def Counted.kind : Counted → SectionKind
  | types | valueTypes => .types
  | functions => .functions
  | tables => .tables
  | exports => .exports
  | bodies => .code

/-- What may be held against the content of a section of the given kind, at a place
that counts from the start of the content. -/
inductive Refusal : SectionKind → List UInt8 → DecodeError → Prop
  | ending {kind : SectionKind} {content : List UInt8} : Refusal kind content (.truncated content.length)
  | count {what : Counted} {num rest : List UInt8} {n : UInt32} :
    what ≠ .valueTypes → Spells num n → what.limit < n.toNat →
      Refusal what.kind (num ++ rest) (.invalidSection what.kind 0 (.tooMany what n))
  | delimiter {front rest : List UInt8} {entries : List FunctionType} {found : UInt8} :
    Partway FunctionTypeForm front entries → found ≠ 0x60 →
      Refusal .types (front ++ found :: rest) (.invalidSection .types front.length (.delimiter found))
  | valueTypeCount {front num rest : List UInt8} {n : UInt32} :
    SignatureFront front → Spells num n → Counted.valueTypes.limit < n.toNat →
      Refusal .types (front ++ (num ++ rest))
        (.invalidSection .types front.length (.tooMany .valueTypes n))
  | valueType {front back rest : List UInt8} {types : List ValueType} {code : UInt8} :
    SignatureFront front → Partway ValueTypeForm back types → ValueType.ofByte? code = none →
      Refusal .types (front ++ back ++ code :: rest)
        (.invalidSection .types (front ++ back).length (.valueType code))
  | refType {front rest : List UInt8} {entries : List Table} {code : UInt8} :
    Partway TableForm front entries → RefType.ofByte? code = none →
      Refusal .tables (front ++ code :: rest) (.invalidSection .tables front.length (.refType code))
  | memoryCount {num rest : List UInt8} {n : UInt32} : Spells num n → Bounds.memories < n.toNat →
      Refusal .memories (num ++ rest) (.invalidSection .memories 0 (.memoryCount n))
  | customName {content : List UInt8} : Misnamed content → Refusal .custom content (.invalidName 0)
  | exportName {front back : List UInt8} {entries : List Export} :
    Partway ExportForm front entries → Misnamed back →
      Refusal .exports (front ++ back) (.invalidName front.length)
  | exportKind {front back rest : List UInt8} {entries : List Export} {name : String} {code : UInt8} :
    Partway ExportForm front entries → NameForm back name → ExportKind.ofByte? code = none →
      Refusal .exports (front ++ back ++ code :: rest)
        (.invalidSection .exports (front ++ back).length (.exportKind code))
  | entryTooLong {front num rest : List UInt8} {entries : List Function} {n : UInt32} :
    Partway EntryForm front entries → Spells num n → Bounds.entrySize < n.toNat →
      Refusal .code (front ++ (num ++ rest)) (.invalidSection .code front.length (.entryTooLong n))
  | entry {front num entry rest : List UInt8} {entries : List Function} {n : UInt32} {e : DecodeError} :
    Partway EntryForm front entries → Spells num n → n.toNat = entry.length →
    Read.function.onBytes entry = .error e → FunctionRefusal entry e →
      Refusal .code (front ++ num ++ (entry ++ rest)) (e.rebase (front ++ num).length)

/-! ## Triples -/

theorem SequenceForm.concat {α : Type} {form : Form α} {front back : List UInt8} {entries : List α} {a : α}
    (h : SequenceForm form front entries) (ha : form back a) :
    SequenceForm form (front ++ back) (entries ++ [a]) := by
  induction h with
  | nil => simpa using SequenceForm.cons ha .nil
  | @cons first _ _ _ hfirst _ ih =>
    rw [List.append_assoc]
    exact .cons hfirst ih

/-- The bytes satisfy `before` up to a part that satisfies `last`. -/
def Behind (before last : List UInt8 → Prop) (lead : List UInt8) : Prop :=
  ∃ front back, lead = front ++ back ∧ before front ∧ last back

/-- The front of a vector, up to one of its elements. -/
def InVector {α : Type} (form : Form α) (lead : List UInt8) : Prop :=
  ∃ entries, Partway form lead entries

/-- An end that comes too early is among the refusals. -/
def Ends (refusal : List UInt8 → DecodeError → Prop) : Prop :=
  ∀ content, refusal content (.truncated content.length)

namespace Read

variable {α β : Type} {before before' : List UInt8 → Prop} {refusal : List UInt8 → DecodeError → Prop}

/-- Behind bytes that satisfy `before`, whatever the action fails for is a refusal of
the whole. -/
def Refuses (before : List UInt8 → Prop) (action : Read α)
    (refusal : List UInt8 → DecodeError → Prop) : Prop :=
  ∀ lead bytes e r, before lead → action (.clean bytes lead.length) = .error e r → refusal (lead ++ bytes) e

theorem refuses_pure (a : α) : Refuses before (pure a) refusal := fun _ _ _ _ _ => nofun

namespace Refuses

theorem mono {action : Read α} (h : Refuses before action refusal) (hbefore : ∀ lead, before' lead → before lead) :
    Refuses before' action refusal :=
  fun lead bytes e r hlead => h lead bytes e r (hbefore lead hlead)

/-- The second action starts behind a form that the first one reads. -/
theorem bind {action : Read α} {next : α → Read β} {form : Form α} (h : Refuses before action refusal)
    (hreads : Reads action form) (hnext : ∀ a, Refuses (Behind before (form · a)) (next a) refusal) :
    Refuses before (action >>= next) refusal := by
  intro lead bytes e r hlead herror
  rcases exists_of_bind_eq_error herror with herror | ⟨a, r₁, ha, herror⟩
  · exact h lead bytes e r hlead herror
  · obtain ⟨front, rest, rfl, hfront, rfl⟩ := (hreads ..).1 ha
    rw [← List.append_assoc]
    refine hnext a (lead ++ front) rest e r ⟨lead, front, rfl, hlead, hfront⟩ ?_
    rwa [List.length_append]

theorem position_bind {next : Nat → Read β}
    (h : ∀ offset, Refuses (fun lead => before lead ∧ lead.length = offset) (next offset) refusal) :
    Refuses before (position >>= next) refusal :=
  fun lead bytes e r hlead herror => h lead.length lead bytes e r ⟨hlead, rfl⟩ herror

theorem look_bind {action : Read α} {next : α → Read β} (hlook : ∀ r, ∃ a, action r = .ok a r)
    (h : ∀ a, Refuses before (next a) refusal) : Refuses before (action >>= next) refusal := by
  intro lead bytes e r hlead herror
  obtain ⟨a, ha⟩ := hlook (.clean bytes lead.length)
  refine h a lead bytes e r hlead ?_
  simpa only [Bind.bind, EStateM.bind, ha] using herror

theorem ite {c : Prop} {_ : Decidable c} {action other : Read α} (h₁ : c → Refuses before action refusal)
    (h₂ : ¬ c → Refuses before other refusal) : Refuses before (if c then action else other) refusal := by
  by_cases hc : c
  · simpa only [if_pos hc] using h₁ hc
  · simpa only [if_neg hc] using h₂ hc

/-- An action that fails, always for the same reason. -/
theorem of_error {action : Read α} (e : DecodeError) (herror : ∀ r, action r = .error e r)
    (h : ∀ lead bytes, before lead → refusal (lead ++ bytes) e) : Refuses before action refusal := by
  intro lead bytes e' r hlead haction
  cases (herror _).symm.trans haction
  exact h lead bytes hlead

/-- An action that fails for the part in front of it, and names the place where that
starts. -/
theorem blames {last : List UInt8 → Prop} {action : Read α} {offset : Nat} (e : Nat → DecodeError)
    (herror : ∀ r, action r = .error (e offset) r)
    (h : ∀ lead part rest, before lead → last part → refusal (lead ++ (part ++ rest)) (e lead.length)) :
    Refuses (Behind (fun lead => before lead ∧ lead.length = offset) last) action refusal := by
  refine of_error _ herror ?_
  rintro _ rest ⟨lead, part, rfl, ⟨hlead, rfl⟩, hpart⟩
  rw [List.append_assoc]
  exact h lead part rest hlead hpart

theorem ofOption {o : Option α} {fallback : Read α} (h : o = none → Refuses before fallback refusal) :
    Refuses before (ofOption o fallback) refusal := by
  cases o with
  | none => exact h rfl
  | some a => exact refuses_pure a

/-- What is made of a result is no reason to fail. -/
theorem bind_pure {action : Read α} (h : Refuses before action refusal) (f : α → β) :
    Refuses before (action >>= fun a => pure (f a)) refusal := by
  intro lead bytes e r hlead herror
  rcases exists_of_bind_eq_error herror with herror | ⟨a, r₁, -, herror⟩
  · exact h lead bytes e r hlead herror
  · cases herror

theorem map {action : Read α} (h : Refuses before action refusal) (f : α → β) :
    Refuses before (f <$> action) refusal := by
  rw [map_eq_pure_bind]
  exact h.bind_pure f

/-- Elements one after another, `total` of them in the end. -/
theorem repeated {element : Read α} {form : Form α} {total : Nat} (hreads : Reads element form)
    (h : Refuses (Behind before fun bytes => ∃ entries, entries.length < total ∧ SequenceForm form bytes entries)
      element refusal) (count : Nat) (done : Array α) :
    Refuses (Behind before fun bytes => ∃ entries, entries.length + count = total ∧
      SequenceForm form bytes entries) (repeated element count done) refusal := by
  induction count generalizing done with
  | zero => exact refuses_pure _
  | succ count ih =>
    refine Refuses.bind (h.mono ?_) hreads fun a => (ih (done.push a)).mono ?_
    · rintro lead ⟨front, back, rfl, hfront, entries, hlen, hback⟩
      exact ⟨front, back, rfl, hfront, entries, by omega, hback⟩
    · rintro _ ⟨_, last, rfl, ⟨front, back, rfl, hfront, entries, hlen, hback⟩, hlast⟩
      refine ⟨front, back ++ last, List.append_assoc .., hfront, entries ++ [a], ?_, hback.concat hlast⟩
      rw [List.length_append, List.length_singleton]
      omega

/-- The elements of a vector, behind their count. -/
theorem elements {element : Read α} {form : Form α} (hreads : Reads element form)
    (h : Refuses (Behind before (InVector form)) element refusal)
    (n : UInt32) (done : Array α) :
    Refuses (Behind before (Spells · n)) (Read.repeated element n.toNat done) refusal := by
  have helement : Refuses (Behind (Behind before (Spells · n)) fun bytes => ∃ entries,
      entries.length < n.toNat ∧ SequenceForm form bytes entries) element refusal := by
    refine h.mono ?_
    rintro _ ⟨_, back, rfl, ⟨lead, front, rfl, hlead, hfront⟩, entries, hlen, hback⟩
    exact ⟨lead, front ++ back, List.append_assoc .., hlead, entries, .intro hfront hlen hback⟩
  refine (repeated hreads helement n.toNat done).mono fun lead hlead => ?_
  exact ⟨lead, [], (List.append_nil _).symm, hlead, [], Nat.zero_add _, .nil⟩

end Refuses

/-! ## Bytes and integers -/

theorem refuses_byte (hends : Ends refusal) : Refuses before byte refusal := by
  intro lead bytes e r _ herror
  cases bytes with
  | nil =>
    cases herror
    rw [List.append_nil]
    exact hends lead
  | cons b bytes => cases herror

theorem refuses_unsigned (hends : Ends refusal) : Refuses before unsigned refusal := by
  intro lead bytes e r _ herror
  cases hread : Leb128.read bytes with
  | none =>
    cases (unsigned_of_unfinished hread).symm.trans herror
    rw [← List.length_append]
    exact hends (lead ++ bytes)
  | some g =>
    simp only [unsigned, Bind.bind, EStateM.bind, groups, Reader.clean_bytes, hread] at herror
    cases herror

theorem refuses_take (hends : Ends refusal) (size : Nat) : Refuses before (take size) refusal := by
  intro lead bytes e r _ herror
  by_cases hlen : size ≤ bytes.length
  · rw [take_of_le (by exact hlen)] at herror
    cases herror
  · rw [take_of_lt (by exact Nat.lt_of_not_le hlen)] at herror
    cases herror
    show refusal _ (.truncated (lead.length + bytes.length))
    rw [← List.length_append]
    exact hends (lead ++ bytes)

theorem refuses_toEnd : Refuses before toEnd refusal := fun _ _ _ _ _ => nofun

/-! ## Vectors -/

/-- A vector is refused for its end, for its count, or for one of its elements. -/
theorem refuses_vector {size : Nat} {kind : SectionKind} {what : Counted} {element : Read α} {form : Form α}
    (hends : Ends refusal)
    (hcount : ∀ lead num rest n, before lead → Spells num n → what.limit < n.toNat →
      refusal (lead ++ (num ++ rest)) (.invalidSection kind lead.length (.tooMany what n)))
    (hreads : Reads element form)
    (h : Refuses (Behind before (InVector form)) element refusal) :
    Refuses before (vector allocate size kind what element) refusal := by
  have hcounted : Refuses before (count kind what) refusal := by
    refine .position_bind fun offset => (refuses_unsigned hends).bind reads_unsigned fun n =>
      .ite (fun hn => .blames (.invalidSection kind · (.tooMany what n)) (fun _ => rfl) ?_)
        fun _ => refuses_pure _
    exact fun lead num rest hlead hnum => hcount lead num rest n hlead hnum hn
  rw [vector_allocate]
  refine hcounted.bind (reads_count kind what) fun n => ?_
  refine ((Refuses.elements hreads h n _).mono ?_).bind_pure _
  rintro _ ⟨lead, num, rfl, hlead, -, hnum⟩
  exact ⟨lead, num, rfl, hlead, hnum⟩

/-! ## Definitions -/

theorem refuses_name (hends : Ends refusal)
    (h : ∀ lead bytes, before lead → Misnamed bytes → refusal (lead ++ bytes) (.invalidName lead.length)) :
    Refuses before name refusal := by
  refine .position_bind fun start => (refuses_unsigned hends).bind reads_unsigned fun n =>
    (refuses_take hends n.toNat).bind (reads_take n.toNat) fun text =>
      .ofOption fun hnone => .of_error (.invalidName start) (fun _ => rfl) ?_
  rintro _ rest ⟨_, _, rfl, ⟨lead, num, rfl, ⟨hlead, rfl⟩, hnum⟩, rfl, hlen⟩
  rw [List.append_assoc, List.append_assoc]
  exact h lead _ hlead (.intro hnum hlen.symm hnone)

theorem refuses_limit (hends : Ends refusal) : Refuses before limit refusal :=
  (refuses_byte hends).bind reads_byte fun _ => (refuses_unsigned hends).bind reads_unsigned fun _ =>
    .ite (fun _ => refuses_pure _) fun _ => (refuses_unsigned hends).bind_pure _

theorem refuses_valueType {kind : SectionKind} (hends : Ends refusal)
    (h : ∀ lead code rest, before lead → ValueType.ofByte? code = none →
      refusal (lead ++ code :: rest) (.invalidSection kind lead.length (.valueType code))) :
    Refuses before (valueType kind) refusal := by
  refine .position_bind fun offset => (refuses_byte hends).bind reads_byte fun code =>
    .ofOption fun hnone => .blames (.invalidSection kind · (.valueType code)) (fun _ => rfl) ?_
  rintro lead _ rest hlead rfl
  exact h lead code rest hlead hnone

theorem ends_refusal (kind : SectionKind) : Ends (Refusal kind) := fun _ => .ending

theorem refuses_functionType (size : Nat) :
    Refuses (InVector FunctionTypeForm) (functionType allocate size) (Refusal .types) := by
  have hends := ends_refusal .types
  have hdelimiter : Refuses (InVector FunctionTypeForm) delimiter (Refusal .types) := by
    refine .position_bind fun offset => (refuses_byte hends).bind reads_byte fun found =>
      .ite (fun hfound => .blames (.invalidSection .types · (.delimiter found)) (fun _ => rfl) ?_)
        fun _ => refuses_pure _
    rintro lead _ rest ⟨entries, hlead⟩ rfl
    exact .delimiter hlead hfound
  have htypes :
      Refuses SignatureFront (vector allocate size .types .valueTypes (valueType .types)) (Refusal .types) := by
    refine refuses_vector hends (fun lead num rest n => .valueTypeCount) (reads_valueType .types) ?_
    refine refuses_valueType hends ?_
    rintro _ code rest ⟨front, back, rfl, hfront, types, hback⟩ hnone
    exact .valueType hfront hback hnone
  have hreads := reads_vector size .types .valueTypes (reads_valueType .types)
  refine hdelimiter.bind reads_delimiter fun _ => (htypes.mono ?_).bind hreads fun parameters =>
    (htypes.mono ?_).bind_pure _
  · rintro _ ⟨front, _, rfl, ⟨entries, hfront⟩, rfl⟩
    exact .parameters hfront
  · rintro _ ⟨_, back, rfl, ⟨front, _, rfl, ⟨entries, hfront⟩, rfl⟩, hback⟩
    exact .results hfront hback

theorem refuses_table : Refuses (InVector TableForm) table (Refusal .tables) := by
  have hends := ends_refusal .tables
  refine .position_bind fun offset => (refuses_byte hends).bind reads_byte fun code =>
    Refuses.bind (.ofOption fun hnone => .blames (.invalidSection .tables · (.refType code)) (fun _ => rfl) ?_)
      (reads_ofOption_reject _) fun element => (refuses_limit hends).bind_pure _
  rintro lead _ rest ⟨entries, hlead⟩ rfl
  exact .refType hlead hnone

theorem refuses_memories : Refuses (· = []) (memories allocate) (Refusal .memories) := by
  have hends := ends_refusal .memories
  refine .position_bind fun offset => (refuses_unsigned hends).bind reads_unsigned fun n =>
    .ite (fun hn => .blames (.invalidSection .memories · (.memoryCount n)) (fun _ => rfl) ?_)
      fun _ => (Refuses.elements reads_limit (refuses_limit hends) n #[]).bind_pure _
  rintro _ num rest rfl hnum
  rw [List.nil_append]
  exact .memoryCount hnum hn

theorem refuses_exportEntry : Refuses (InVector ExportForm) exportEntry (Refusal .exports) := by
  have hends := ends_refusal .exports
  have hname : Refuses (InVector ExportForm) name (Refusal .exports) :=
    refuses_name hends fun lead bytes ⟨entries, hlead⟩ => .exportName hlead
  refine hname.bind reads_name fun name => .position_bind fun offset =>
    (refuses_byte hends).bind reads_byte fun code =>
      Refuses.bind (.ofOption fun hnone => .blames (.invalidSection .exports · (.exportKind code))
        (fun _ => rfl) ?_) (reads_ofOption_reject _) fun kind => (refuses_unsigned hends).bind_pure _
  rintro _ _ rest ⟨front, back, rfl, ⟨entries, hfront⟩, hback⟩ rfl
  exact .exportKind hfront hback hnone

/-! ## Function bodies -/

/-- The front of a function, up to declarations of which `count` are still to come. Those
before come to `total` locals. -/
inductive Declared (count total : Nat) : List UInt8 → Prop
  | intro {front back : List UInt8} {n : UInt32} {runs : List (Nat × ValueType)} :
    Spells front n → SequenceForm DeclarationForm back runs → runs.length + count = n.toNat →
    (expandRuns runs).length = total → Declared count total (front ++ back)

theorem Declared.exists_partway {count total : Nat} {lead : List UInt8} (h : Declared (count + 1) total lead) :
    ∃ runs, Partway DeclarationForm lead runs ∧ (expandRuns runs).length = total := by
  obtain @⟨front, back, n, runs, hfront, hback, hlen, htotal⟩ := h
  exact ⟨runs, .intro hfront (by omega) hback, htotal⟩

/-- With a declaration more, fewer are still to come. -/
theorem Declared.concat {count total : Nat} {lead num : List UInt8} {n : UInt32}
    (h : Declared (count + 1) total lead) (hnum : Spells num n) (t : ValueType) :
    Declared count (total + n.toNat) (lead ++ (num ++ [t.byte])) := by
  obtain @⟨front, back, k, runs, hfront, hback, hlen, htotal⟩ := h
  rw [List.append_assoc]
  refine .intro hfront (hback.concat (.intro hnum)) ?_ ?_
  · rw [List.length_append, List.length_singleton]
    omega
  · rw [← htotal]
    simp [expandRuns]

theorem refuses_declarations (count total : Nat) (done : List ValueType) (htotal : total ≤ Bounds.locals) :
    Refuses (Declared count total) (declarations count total done) FunctionRefusal := by
  have hends : Ends FunctionRefusal := fun _ => .ending
  induction count generalizing total done with
  | zero => exact refuses_pure _
  | succ count ih =>
    refine .position_bind fun offset => (refuses_unsigned hends).bind reads_unsigned fun n =>
      .ite (fun hn => .blames (.invalidSection .code · .tooManyLocals) (fun _ => rfl) ?_) fun hn =>
        (refuses_valueType hends ?_).bind (reads_valueType .code) fun t =>
          (ih (total + n.toNat) (List.replicate n.toNat t ++ done) (by omega)).mono ?_
    · intro lead num rest hlead hnum
      obtain ⟨runs, hruns, rfl⟩ := hlead.exists_partway
      exact .locals hruns hnum htotal hn
    · rintro _ code rest ⟨lead, num, rfl, ⟨hlead, -⟩, hnum⟩ hnone
      obtain ⟨runs, hruns, -⟩ := hlead.exists_partway
      exact .valueType hruns hnum hnone
    · rintro _ ⟨_, _, rfl, ⟨lead, num, rfl, ⟨hlead, -⟩, hnum⟩, rfl⟩
      rw [List.append_assoc]
      exact hlead.concat hnum t

theorem refuses_function : Refuses (· = []) function FunctionRefusal := by
  refine (refuses_unsigned fun _ => .ending).bind reads_unsigned fun n =>
    ((refuses_declarations n.toNat 0 [] (Nat.zero_le _)).mono ?_).bind
      (reads_declarations n.toNat 0 [] (Nat.zero_le _)) fun locals => refuses_toEnd.bind_pure _
  rintro _ ⟨_, num, rfl, rfl, hnum⟩
  rw [List.nil_append, ← List.append_nil num]
  exact .intro hnum .nil (Nat.zero_add _) rfl

theorem functionRefusal_of_onBytes {entry : List UInt8} {e : DecodeError}
    (h : function.onBytes entry = .error e) : FunctionRefusal entry e := by
  rw [onBytes, Reader.ofBytes_eq] at h
  split at h
  · cases h
  · next herror =>
    cases h
    exact refuses_function [] entry _ _ rfl herror

/-- A function is read on its own, and what is held against it is put in its place. -/
theorem refuses_codeEntry : Refuses (InVector EntryForm) codeEntry (Refusal .code) := by
  have hends := ends_refusal .code
  refine .position_bind fun offset => (refuses_unsigned hends).bind reads_unsigned fun n =>
    .ite (fun hn => .blames (.invalidSection .code · (.entryTooLong n)) (fun _ => rfl) ?_) fun _ =>
      .position_bind fun start => (refuses_take hends n.toNat).bind (reads_take n.toNat) fun entry => ?_
  · rintro lead num rest ⟨entries, hlead⟩ hnum
    exact .entryTooLong hlead hnum hn
  · cases hfunction : function.onBytes entry with
    | ok f => exact refuses_pure f
    | error e =>
      refine .of_error (e.rebase start) (fun _ => rfl) ?_
      rintro _ rest ⟨_, _, rfl, ⟨⟨lead, num, rfl, ⟨⟨entries, hlead⟩, rfl⟩, hnum⟩, rfl⟩, rfl, hlen⟩
      rw [List.append_assoc]
      exact .entry hlead hnum hlen.symm hfunction (functionRefusal_of_onBytes hfunction)

/-! ## Sections -/

/-- A vector that makes up a section. -/
theorem refuses_sectionVector {what : Counted} {element : Nat → Read α} {form : Form α}
    (hwhat : what ≠ .valueTypes) (hreads : ∀ size, Reads (element size) form)
    (h : ∀ size, Refuses (InVector form) (element size) (Refusal what.kind)) :
    Refuses (· = []) (sectionVector allocate what.kind what element) (Refusal what.kind) := by
  refine .look_bind (fun _ => ⟨_, rfl⟩) fun size => ?_
  refine refuses_vector (ends_refusal _) ?_ (hreads size) ((h size).mono ?_)
  · rintro _ num rest n rfl hnum hn
    rw [List.nil_append]
    exact .count hwhat hnum hn
  · rintro _ ⟨_, back, rfl, rfl, hback⟩
    exact hback

theorem refuses_sectionContent (id : UInt8) (content : List UInt8) :
    Refuses (· = []) (sectionContent allocate id content) (Refusal (SectionKind.ofId id)) := by
  rw [sectionContent]
  cases SectionKind.ofId id with
  | custom =>
    refine Refuses.bind (refuses_name (ends_refusal _) ?_) reads_name fun name => refuses_toEnd.bind_pure _
    rintro _ bytes rfl hbytes
    exact .customName hbytes
  | types => exact (@refuses_sectionVector _ .types _ _ (by decide) reads_functionType refuses_functionType).map _
  | functions =>
    exact (@refuses_sectionVector _ .functions _ _ (by decide) (fun _ => reads_unsigned)
      fun _ => refuses_unsigned (ends_refusal _)).map _
  | tables =>
    exact (@refuses_sectionVector _ .tables _ _ (by decide) (fun _ => reads_table)
      fun _ => refuses_table).map _
  | memories => exact refuses_memories.map _
  | exports =>
    exact (@refuses_sectionVector _ .exports _ _ (by decide) (fun _ => reads_exportEntry)
      fun _ => refuses_exportEntry).map _
  | code =>
    exact (@refuses_sectionVector _ .bodies _ _ (by decide) (fun _ => reads_codeEntry)
      fun _ => refuses_codeEntry).map _
  | unknown => exact refuses_toEnd.map _

end Read

/-- A content that is not read as a section is refused by the grammar. -/
theorem Section.refusal_of_read {id : UInt8} {content : List UInt8} {e : DecodeError}
    (h : Section.read id content = .error e) : Refusal (SectionKind.ofId id) content e := by
  rw [read, readWith, Reader.ofBytes_eq] at h
  split at h
  · cases h
  · next herror =>
    cases h
    exact Read.refuses_sectionContent id content [] content _ _ rfl herror

end StackVm
