import StackVm.Proofs.Binary.Decoding
import StackVm.Proofs.Binary.Stability

/-!
# Decoding and concatenation

What follows a module as further frames is decoded as it would be on its own,
with all places further on, and what follows bytes that are no module does not
mend them (`decode_append`). The proof goes frame by frame:

* `scanFrames_append`: a scan that reaches the end of its bytes goes on with
  more of them as if it started there, and one that fails stays as it is,
  unless bytes were missing;
* `scanFrames_moved`: further on, a scan meets the same frames.
-/

namespace StackVm

/-! ## Scanning more -/

/-- What becomes of a scan of the bytes up to `stop` when `more` of them
follow. -/
def Scan.Continues (s : Scan) (stop : Nat) (more : List UInt8) (s' : Scan) : Prop :=
  match s.outcome with
  | .ok length => length = stop ∧ s' = scanFrames (.clean more stop) s.frames
  | .error e => e = .truncated stop ∨ s' = s

theorem scanFrames_of_frame {r r' : Reader} {f : Framed} (h : Read.frame? r = .ok (some f) r')
    (done : Array Framed) : scanFrames r done = scanFrames r' (done.push f) := by
  rw [scanFrames, h]

theorem scanFrames_of_error {r r' : Reader} {e : DecodeError} (h : Read.frame? r = .error e r')
    (done : Array Framed) : scanFrames r done = { frames := done, outcome := .error e } := by
  rw [scanFrames, h]

theorem scanFrames_nil (pos : Nat) (done : Array Framed) :
    scanFrames (.clean [] pos) done = { frames := done, outcome := .ok pos } := by
  rw [scanFrames]
  rfl

theorem scanFrames_append (bytes more : List UInt8) (pos : Nat) (done : Array Framed) :
    (scanFrames (.clean bytes pos) done).Continues (pos + bytes.length) more
      (scanFrames (.clean (bytes ++ more) pos) done) := by
  generalize hr : Reader.clean bytes pos = r
  induction r, done using scanFrames.induct generalizing bytes pos with
  | case2 r done r' hf =>
    subst hr
    cases Read.eq_nil_of_frame? hf
    rw [scanFrames_nil]
    exact ⟨rfl, rfl⟩
  | case1 r done f r' hf ih =>
    subst hr
    cases bytes with
    | nil => cases hf
    | cons id bytes =>
      have hmore := Read.outlasts_frame? id bytes pos more
      rw [hf] at hmore
      obtain ⟨front, rest, hbytes, rfl, hf'⟩ := hmore
      rw [scanFrames_of_frame hf, scanFrames_of_frame hf', hbytes, List.length_append, ← Nat.add_assoc]
      exact ih rest (pos + front.length) rfl
  | case3 r done e r' hf =>
    subst hr
    cases bytes with
    | nil => cases hf
    | cons id bytes =>
      have hmore := Read.outlasts_frame? id bytes pos more
      rw [hf] at hmore
      rw [scanFrames_of_error hf]
      rcases hmore with htruncated | ⟨r, hf'⟩
      · exact .inl htruncated
      · exact .inr (scanFrames_of_error hf' done)

/-- Frames that were met before stay in front of all others. -/
theorem scanFrames_append_done (first : Array Framed) (r : Reader) (done : Array Framed) :
    scanFrames r (first ++ done) =
      { frames := first ++ (scanFrames r done).frames, outcome := (scanFrames r done).outcome } := by
  induction r, done using scanFrames.induct with
  | case1 r done f r' hf ih =>
    rw [scanFrames_of_frame hf, scanFrames_of_frame hf, ← Array.append_push]
    exact ih
  | case2 r done r' hf => rw [scanFrames, hf, scanFrames, hf]
  | case3 r done e r' hf => rw [scanFrames_of_error hf, scanFrames_of_error hf]

/-! ## Scanning elsewhere -/

/-- The scan, so many bytes further on. -/
def Scan.moved (count : Nat) (s : Scan) : Scan where
  frames := s.frames.map (Framed.moved count)
  outcome :=
    match s.outcome with
    | .ok length => .ok (length + count)
    | .error e => .error (e.rebase count)

theorem scanFrames_moved (count : Nat) (r : Reader) (done : Array Framed) :
    scanFrames (r.moved count) (done.map (Framed.moved count)) = (scanFrames r done).moved count := by
  induction r, done using scanFrames.induct with
  | case1 r done f r' hf ih =>
    have hf' := @Read.moves_frame? count r
    rw [hf] at hf'
    rw [scanFrames_of_frame hf, ← ih, Array.map_push]
    exact scanFrames_of_frame hf' _
  | case2 r done r' hf =>
    have hf' := @Read.moves_frame? count r
    rw [hf] at hf'
    rw [scanFrames, hf', scanFrames, hf]
    rfl
  | case3 r done e r' hf =>
    have hf' := @Read.moves_frame? count r
    rw [hf] at hf'
    rw [scanFrames_of_error hf, scanFrames_of_error hf']
    rfl

/-- Frames after others are scanned as they are on their own, further on. -/
theorem scanFrames_after (done : Array Framed) (bytes : List UInt8) (pos count : Nat) :
    scanFrames (.clean bytes (pos + count)) done =
      { frames := done ++ ((scanFrames (.clean bytes pos) #[]).moved count).frames
        outcome := ((scanFrames (.clean bytes pos) #[]).moved count).outcome } := by
  have hmoved := scanFrames_moved count (.clean bytes pos) #[]
  have hdone := scanFrames_append_done done (.clean bytes (pos + count)) #[]
  rw [Array.map_empty] at hmoved
  rw [Array.append_empty] at hdone
  rw [hdone, ← hmoved]
  rfl

/-! ## Decoding -/

/-- The bytes that open a module. -/
def opening : List UInt8 :=
  [0x00, 0x61, 0x73, 0x6d, 0x01, 0x00, 0x00, 0x00]

theorem scan_opening_append (frames : List UInt8) (failure : Option Failure) :
    scan ⟨opening ++ frames, failure⟩ = scanFrames ⟨⟨frames, failure⟩, 8⟩ #[] := by
  have hpre : Read.preamble (.ofSource ⟨opening ++ frames, failure⟩) = .ok () ⟨⟨frames, failure⟩, 8⟩ := rfl
  rw [scan, hpre]

theorem decode_opening_append (frames : List UInt8) :
    decode (opening ++ frames) = (scanFrames (.clean frames 8) #[]).module? "module" := by
  rw [decode, decodeNamed, Source.ofBytes, scan_opening_append]
  rfl

theorem preamble_eq (b₀ b₁ b₂ b₃ b₄ b₅ b₆ b₇ : UInt8) (rest : List UInt8) :
    Read.preamble (.ofBytes (b₀ :: b₁ :: b₂ :: b₃ :: b₄ :: b₅ :: b₆ :: b₇ :: rest)) =
      let first := Read.littleEndian b₀ b₁ b₂ b₃
      let second := Read.littleEndian b₄ b₅ b₆ b₇
      if first ≠ magic then
        .error (.invalidModule (.badMagic first)) (.clean (b₄ :: b₅ :: b₆ :: b₇ :: rest) 4)
      else if second ≠ version then .error (.invalidModule (.unsupportedVersion second)) (.clean rest 8)
      else .ok () (.clean rest 8) := by
  show (if Read.littleEndian b₀ b₁ b₂ b₃ ≠ magic then _ else _ : Read Unit)
    (.clean (b₄ :: b₅ :: b₆ :: b₇ :: rest) 4) = _
  by_cases hmagic : Read.littleEndian b₀ b₁ b₂ b₃ ≠ magic
  · simp only [if_pos hmagic]
    rfl
  · simp only [if_neg hmagic]
    show (if Read.littleEndian b₄ b₅ b₆ b₇ ≠ version then _ else _ : Read Unit) (.clean rest 8) = _
    by_cases hversion : Read.littleEndian b₄ b₅ b₆ b₇ ≠ version
    · simp only [if_pos hversion]
      rfl
    · simp only [if_neg hversion]
      rfl

/-- Eight bytes are enough to see that a module opens otherwise. -/
theorem preamble_append_of_error {bytes : List UInt8} {e : DecodeError} {r : Reader}
    (hlen : 8 ≤ bytes.length) (h : Read.preamble (.ofBytes bytes) = .error e r) (more : List UInt8) :
    ∃ r', Read.preamble (.ofBytes (bytes ++ more)) = .error e r' := by
  match bytes with
  | b₀ :: b₁ :: b₂ :: b₃ :: b₄ :: b₅ :: b₆ :: b₇ :: rest =>
    simp only [List.cons_append]
    rw [preamble_eq] at h ⊢
    simp only at h ⊢
    split at h
    · next hmagic =>
      cases h
      exact ⟨_, if_pos hmagic⟩
    · next hmagic =>
      split at h
      · next hversion =>
        cases h
        exact ⟨_, (if_neg hmagic).trans (if_pos hversion)⟩
      · cases h

theorem decode_of_preamble_error {bytes : List UInt8} {e : DecodeError} {r : Reader}
    (h : Read.preamble (.ofBytes bytes) = .error e r) : decode bytes = .error e := by
  have hscan : scan (.ofBytes bytes) = { frames := #[], outcome := .error e } := by
    rw [scan, show Read.preamble (.ofSource (.ofBytes bytes)) = .error e r from h]
  rw [decode, decodeNamed, hscan]
  rfl

/-- What follows a module is decoded as it is on its own. -/
theorem decode_append_of_ok {a b : List UInt8} {m : Module} (h : decode (opening ++ a) = .ok m) :
    (∀ m₂, decode (opening ++ b) = .ok m₂ → ∃ m₃, decode (opening ++ a ++ b) = .ok m₃ ∧
      m₃.sections = m.sections ++ m₂.sections ∧
      m₃.spans = m.spans ++ m₂.spans.map (Span.moved a.length)) ∧
    ∀ e, decode (opening ++ b) = .error e →
      decode (opening ++ a ++ b) = .error (e.rebase a.length) := by
  rw [decode_opening_append, Scan.module?_eq_ok_iff] at h
  obtain ⟨⟨length, hlength⟩, rfl⟩ := h
  have hscan := scanFrames_append a b 8 #[]
  rw [Scan.Continues, hlength, scanFrames_after] at hscan
  rw [List.append_assoc]
  simp only [decode_opening_append]
  generalize scanFrames (.clean a 8) #[] = first at hlength hscan ⊢
  generalize scanFrames (.clean b 8) #[] = second at hscan ⊢
  rw [hscan.2]
  refine ⟨fun m₂ h => ?_, fun e h => ?_⟩
  · obtain ⟨⟨stop, hstop⟩, rfl⟩ := Scan.module?_eq_ok_iff.1 h
    refine ⟨_, Scan.module?_eq_ok_iff.2 ⟨⟨stop + a.length, ?_⟩, rfl⟩, ?_, ?_⟩
    · simp only [Scan.moved, hstop]
    · apply Array.toList_inj.1
      simp [toList_sections_toModule, Scan.contents, Scan.moved, Framed.moved]
    · apply Array.toList_inj.1
      simp [toList_spans_toModule, Scan.moved, Framed.moved]
  · rw [Scan.module?_eq_error_iff] at h ⊢
    simp only [Scan.moved, h]

/-- Bytes that are no module are none with more bytes behind them, and for the
same reason, unless they end too early. -/
theorem decode_append_of_error {bytes more : List UInt8} {e : DecodeError} (hlen : 8 ≤ bytes.length)
    (h : decode bytes = .error e) (he : e ≠ .truncated bytes.length) : decode (bytes ++ more) = .error e := by
  cases hpre : Read.preamble (.ofBytes bytes) with
  | error e' r =>
    have he' := (decode_of_preamble_error hpre).symm.trans h
    cases he'
    obtain ⟨r', hpre'⟩ := preamble_append_of_error hlen hpre more
    exact decode_of_preamble_error hpre'
  | ok _ r =>
    obtain ⟨_, frames, rfl, rfl, -⟩ := (Read.reads_preamble bytes 0 () r).1 hpre
    have hscan := scanFrames_append frames more 8 #[]
    rw [List.append_assoc]
    replace h : decode (opening ++ frames) = .error e := h
    show decode (opening ++ _) = .error e
    rw [decode_opening_append, Scan.module?_eq_error_iff] at h ⊢
    rw [Scan.Continues, h] at hscan
    rcases hscan with htruncated | hsame
    · refine absurd htruncated ?_
      rwa [List.length_append] at he
    · rw [hsame, h]

/-- Decoding distributes over frames: what follows a module is decoded as it is
on its own, with all places further on, and a failure that is not a lack of
bytes stays, whatever follows. -/
theorem decode_append :
    (∀ a b m, decode (opening ++ a) = .ok m →
      (∀ m₂, decode (opening ++ b) = .ok m₂ → ∃ m₃, decode (opening ++ a ++ b) = .ok m₃ ∧
        m₃.sections = m.sections ++ m₂.sections ∧
        m₃.spans = m.spans ++ m₂.spans.map (Span.moved a.length)) ∧
      ∀ e, decode (opening ++ b) = .error e →
        decode (opening ++ a ++ b) = .error (e.rebase a.length)) ∧
    ∀ bytes more e, 8 ≤ bytes.length → decode bytes = .error e → e ≠ .truncated bytes.length →
      decode (bytes ++ more) = .error e :=
  ⟨fun _ _ _ h => decode_append_of_ok h, fun _ _ _ hlen h he => decode_append_of_error hlen h he⟩

theorem exists_of_toOption_map {α β : Type} {outcome : Except DecodeError α} {f : α → β} {b : β}
    (h : outcome.toOption.map f = some b) : ∃ a, outcome = .ok a ∧ f a = b := by
  cases outcome with
  | error e => cases h
  | ok a => exact ⟨a, rfl, Option.some.inj h⟩

/-- A memory, and behind it function indices or a type that does not start as
one: the failure of the latter stays with another byte behind it. -/
theorem decode_append_memory :
    let memory : List UInt8 := [5, 3, 1, 0, 2]
    let functions : List UInt8 := [3, 2, 1, 7]
    let badType : List UInt8 := [1, 2, 1, 0x61]
    (∃ m, decode (opening ++ memory) = .ok m ∧ ∃ m₂, decode (opening ++ functions) = .ok m₂ ∧
      m₂.spans = #[⟨8, 12⟩] ∧ ∃ m₃, decode (opening ++ memory ++ functions) = .ok m₃ ∧
      m₃.sections = #[.memories [⟨2, none⟩], .functions [7]] ∧ m₃.spans = #[⟨8, 13⟩, ⟨13, 17⟩]) ∧
    decode (opening ++ badType) = .error (.invalidSection .types 11 (.delimiter 0x61)) ∧
    decode (opening ++ memory ++ badType) = .error (.invalidSection .types 16 (.delimiter 0x61)) ∧
    decode (opening ++ badType ++ [0xff]) = .error (.invalidSection .types 11 (.delimiter 0x61)) := by
  intro memory functions badType
  have hmemory : (decode (opening ++ memory)).toOption.map (fun m => (m.sections, m.spans)) =
      some (#[.memories [⟨2, none⟩]], #[⟨8, 13⟩]) := by
    decide +kernel
  have hfunctions : (decode (opening ++ functions)).toOption.map (fun m => (m.sections, m.spans)) =
      some (#[.functions [7]], #[⟨8, 12⟩]) := by
    decide +kernel
  have hbad : decode (opening ++ badType) = .error (.invalidSection .types 11 (.delimiter 0x61)) := by
    cbv
  obtain ⟨m, hm, hparts⟩ := exists_of_toOption_map hmemory
  obtain ⟨m₂, hm₂, hparts₂⟩ := exists_of_toOption_map hfunctions
  obtain ⟨hsections, hspans⟩ := Prod.mk.inj hparts
  obtain ⟨hsections₂, hspans₂⟩ := Prod.mk.inj hparts₂
  obtain ⟨m₃, hm₃, hsections₃, hspans₃⟩ := (decode_append.1 memory functions m hm).1 m₂ hm₂
  rw [hsections, hsections₂] at hsections₃
  rw [hspans, hspans₂] at hspans₃
  refine ⟨⟨m, hm, m₂, hm₂, hspans₂, m₃, hm₃, hsections₃, hspans₃.trans (by decide +kernel)⟩, hbad, ?_, ?_⟩
  · exact (decode_append.1 memory badType m hm).2 _ hbad
  · exact decode_append.2 (opening ++ badType) [0xff] _ (by decide) hbad (by decide)

end StackVm
