import StackVm.Proofs.Binary.Frames

/-!
# Modules that are cut off

What the first bytes of a module come to on their own (`decode_take`). A cut
between frames leaves the module of the frames in front of it, and a cut
anywhere else is found out, and found where it is.

* `FrameAt.frame?_take`: a frame that is cut off is a frame that ends too early,
  and nothing else is held against it;
* `FramesAt.scanFrames_take`: a scan of frames that are cut off keeps those in
  front of the cut.
-/

namespace StackVm

variable {pos : Nat} {front bytes : List UInt8} {f : Framed} {frames : List Framed}

/-- A frame that is cut off ends too early, just at the cut. -/
theorem FrameAt.frame?_take (h : FrameAt pos front f) {cut : Nat} (hpos : 0 < cut)
    (hlt : cut < front.length) :
    ∃ r, Read.frame? (.clean (front.take cut) pos) = .error (.truncated (pos + cut)) r := by
  obtain ⟨id, bytes, hcut⟩ : ∃ id bytes, front.take cut = id :: bytes := by
    apply List.exists_cons_of_length_pos
    rw [List.length_take]
    omega
  have hlen : (id :: bytes).length = cut := by
    rw [← hcut, List.length_take]
    omega
  have hfront : id :: bytes ++ front.drop cut = front := by rw [← hcut, List.take_append_drop]
  have hwhole := h.frame?_append [] none
  have hmore := Read.outlasts_frame? id bytes pos (front.drop cut)
  rw [List.append_nil] at hwhole
  rw [hcut]
  cases hframe : Read.frame? (.clean (id :: bytes) pos) with
  | ok found r =>
    -- the same bytes would be taken from the whole frame, which takes more
    rw [hframe] at hmore
    obtain ⟨before, rest, hbytes, -, hmore⟩ := hmore
    rw [hfront] at hmore
    have hr := hmore.symm.trans hwhole
    simp only [EStateM.Result.ok.injEq] at hr
    have hbefore : pos + before.length = pos + front.length := congrArg Reader.pos hr.2
    rw [hbytes, List.length_append] at hlen
    omega
  | error e r =>
    rw [hframe] at hmore
    rcases hmore with rfl | ⟨r', hmore⟩
    · rw [hlen]
      exact ⟨r, rfl⟩
    · rw [hfront] at hmore
      cases hmore.symm.trans hwhole

/-- Frames end behind where the first of them starts. -/
theorem FramesAt.lt_stop (h : FramesAt pos bytes frames) : ∀ f ∈ frames, pos < f.span.stop := by
  induction h with
  | nil => simp
  | @cons pos front back f frames hf _ ih =>
    have hpos := hf.length_pos
    intro g hg
    rcases List.mem_cons.1 hg with rfl | hg
    · rw [hf.span_eq]
      show pos < pos + front.length
      omega
    · have := ih g hg
      omega

/-- Whether so many bytes of frames, the first of which starts at `pos`, are
frames too. -/
def Boundary (pos : Nat) (frames : List Framed) (cut : Nat) : Prop :=
  cut = 0 ∨ ∃ f ∈ frames, f.span.stop = pos + cut

/-- A scan of frames that are cut off keeps the frames in front of the cut, and
reaches the end if the cut is between frames. -/
theorem FramesAt.scanFrames_take (h : FramesAt pos bytes frames) (cut : Nat) (hcut : cut ≤ bytes.length)
    (done : Array Framed) :
    (Boundary pos frames cut → scanFrames (.clean (bytes.take cut) pos) done =
      { frames := done ++ (frames.filter (·.span.stop ≤ pos + cut)).toArray, outcome := .ok (pos + cut) }) ∧
    (¬ Boundary pos frames cut →
      (scanFrames (.clean (bytes.take cut) pos) done).outcome = .error (.truncated (pos + cut))) := by
  induction h generalizing cut done with
  | nil =>
    obtain rfl : cut = 0 := by simpa using hcut
    refine ⟨fun _ => ?_, fun h => absurd (.inl rfl) h⟩
    rw [List.take_zero, scanFrames_nil]
    simp
  | @cons pos front back f frames hf hframes ih =>
    have hspan := hf.span_eq
    have hpos := hf.length_pos
    have hbehind := hframes.lt_stop
    rcases Nat.eq_zero_or_pos cut with rfl | hstart
    · have hnone : (f :: frames).filter (·.span.stop ≤ pos + 0) = [] := by
        have := (FramesAt.cons hf hframes).lt_stop
        simpa [List.filter_eq_nil_iff] using this
      refine ⟨fun _ => ?_, fun h => absurd (.inl rfl) h⟩
      rw [List.take_zero, scanFrames_nil, hnone]
      simp
    by_cases hinside : cut < front.length
    · have hboundary : ¬ Boundary pos (f :: frames) cut := by
        rintro (hzero | ⟨g, hg, hstop⟩)
        · omega
        rcases List.mem_cons.1 hg with rfl | hg
        · rw [hspan] at hstop
          simp only at hstop
          omega
        · have := hbehind g hg
          omega
      refine ⟨fun h => absurd h hboundary, fun _ => ?_⟩
      obtain ⟨r, hr⟩ := hf.frame?_take hstart hinside
      rw [List.take_append_of_le_length (Nat.le_of_lt hinside), scanFrames_of_error hr]
    · -- the first frame is passed over, and the cut is among the others
      obtain ⟨rest, rfl⟩ : ∃ rest, cut = front.length + rest := ⟨cut - front.length, by omega⟩
      have hrest : rest ≤ back.length := by
        rw [List.length_append] at hcut
        omega
      have hboundary : Boundary pos (f :: frames) (front.length + rest) ↔
          Boundary (pos + front.length) frames rest := by
        simp only [Boundary, List.mem_cons, exists_eq_or_imp, hspan, Nat.add_assoc]
        constructor
        · rintro (hzero | hstop | hmem)
          · omega
          · exact .inl (by omega)
          · exact .inr hmem
        · rintro (rfl | hmem)
          · exact .inr (.inl rfl)
          · exact .inr (.inr hmem)
      have hkept : (f :: frames).filter (·.span.stop ≤ pos + (front.length + rest)) =
          f :: frames.filter (·.span.stop ≤ pos + front.length + rest) := by
        rw [← Nat.add_assoc, List.filter_cons_of_pos]
        rw [hspan]
        simp only [decide_eq_true_eq]
        omega
      obtain ⟨hkeep, hlose⟩ := ih rest hrest (done.push f)
      rw [List.take_length_add_append, hboundary, hkept, ← Nat.add_assoc,
        show Reader.clean (front ++ back.take rest) pos = ⟨⟨front ++ back.take rest, none⟩, pos⟩ from rfl,
        scanFrames_of_frame (hf.frame?_append _ none)]
      refine ⟨fun h => (hkeep h).trans ?_, hlose⟩
      simp

/-! ## Decoding -/

/-- The sections of a module, each with the range it was read from. -/
def Module.placed (m : Module) : List (Section × Span) :=
  m.sections.toList.zip m.spans.toList

namespace Module.Records

variable {m : Module}

theorem placed_eq (h : m.Records frames) : m.placed = frames.map fun f => (f.content, f.span) := by
  rw [placed, h.sections_eq, h.spans_eq, List.zip_map']

theorem size_eq (h : m.Records frames) : m.sections.size = m.spans.size := by
  rw [← Array.length_toList, h.sections_eq, ← Array.length_toList, h.spans_eq, List.length_map, List.length_map]

theorem exists_span_iff (h : m.Records frames) (stop : Nat) :
    (∃ s ∈ m.spans, s.stop = stop) ↔ ∃ f ∈ frames, f.span.stop = stop := by
  simp only [← Array.mem_toList_iff, h.spans_eq, List.mem_map]
  constructor
  · rintro ⟨_, ⟨f, hf, rfl⟩, hstop⟩
    exact ⟨f, hf, hstop⟩
  · rintro ⟨f, hf, hstop⟩
    exact ⟨f.span, ⟨f, hf, rfl⟩, hstop⟩

end Module.Records

theorem decode_take_opening (rest : List UInt8) (inner : Nat) :
    decode ((opening ++ rest).take (8 + inner)) =
      (scanFrames (.clean (rest.take inner) 8) #[]).module? "module" := by
  have htake : (opening ++ rest).take (opening.length + inner) = opening ++ rest.take inner :=
    List.take_length_add_append inner
  rw [← decode_opening_append, ← htake]
  rfl

/-- Fewer bytes than open a module are none. -/
theorem decode_of_length_lt (h : bytes.length < 8) :
    ∃ fault, decode bytes = .error (.invalidModule fault) := by
  cases hpre : Read.preamble (.ofBytes bytes) with
  | error e r =>
    obtain ⟨fault, rfl⟩ := Read.exists_fault_of_preamble hpre
    exact ⟨fault, decode_of_preamble_error hpre⟩
  | ok _ r =>
    obtain ⟨_, frames, rfl, rfl, -⟩ := (Read.reads_preamble bytes 0 () r).1 hpre
    simp only [List.length_append, List.length_cons] at h
    omega

/-- The first bytes of a module, on their own. Fewer than eight of them are no
module. Where a section ends, and before the first one, they are the module of
the sections up to there. Anywhere else they end too early, and are refused for
that, at the place where they end. -/
theorem decode_take {m : Module} (h : decode bytes = .ok m) (cut : Nat) (hcut : cut < bytes.length) :
    (cut < 8 → ∃ fault, decode (bytes.take cut) = .error (.invalidModule fault)) ∧
    (cut = 8 ∨ (∃ s ∈ m.spans, s.stop = cut) → ∃ m', decode (bytes.take cut) = .ok m' ∧
      m'.placed = m.placed.filter (·.2.stop ≤ cut) ∧
      m.sections.size = m.spans.size ∧ m'.sections.size = m'.spans.size) ∧
    (8 < cut → (∀ s ∈ m.spans, s.stop ≠ cut) → decode (bytes.take cut) = .error (.truncated cut)) := by
  obtain ⟨rest, frames, rfl, hframes, hrecords⟩ := exists_framesAt_of_decode h
  have hlen : (opening ++ rest).length = 8 + rest.length := List.length_append
  refine ⟨fun hlt => decode_of_length_lt (by rw [List.length_take]; omega), fun hwhere => ?_, fun hlt hwhere => ?_⟩
  · have hwhere' : ∃ inner, cut = 8 + inner ∧ Boundary 8 frames inner := by
      rcases hwhere with rfl | hspan
      · exact ⟨0, rfl, .inl rfl⟩
      · obtain ⟨f, hf, rfl⟩ := (hrecords.exists_span_iff cut).1 hspan
        have := hframes.lt_stop f hf
        exact ⟨f.span.stop - 8, by omega, .inr ⟨f, hf, by omega⟩⟩
    obtain ⟨inner, rfl, hboundary⟩ := hwhere'
    have hscan := (hframes.scanFrames_take inner (by omega) #[]).1 hboundary
    have hcutRecords := (scanFrames (.clean (rest.take inner) 8) #[]).records_toModule "module"
    refine ⟨(scanFrames (.clean (rest.take inner) 8) #[]).toModule "module", ?_, ?_, hrecords.size_eq,
      hcutRecords.size_eq⟩
    · rw [decode_take_opening, Scan.module?_eq_ok_iff, hscan]
      exact ⟨⟨_, rfl⟩, rfl⟩
    · rw [hcutRecords.placed_eq, hrecords.placed_eq, hscan, List.filter_map]
      simp [Function.comp_def]
  · obtain ⟨inner, rfl⟩ : ∃ inner, cut = 8 + inner := ⟨cut - 8, by omega⟩
    have hboundary : ¬ Boundary 8 frames inner := by
      rintro (hzero | hstop)
      · omega
      · obtain ⟨s, hs, hstop⟩ := (hrecords.exists_span_iff _).2 hstop
        exact hwhere s hs hstop
    rw [decode_take_opening, Scan.module?_eq_error_iff]
    exact (hframes.scanFrames_take inner (by omega) #[]).2 hboundary

/-- A memory and function indices, the latter behind a size of two bytes where
one would do. A cut between the two leaves the memory, and one inside the size
is found there. -/
theorem decode_take_memory :
    let bytes := opening ++ [5, 3, 1, 0, 2, 3, 0x82, 0x00, 1, 7]
    ∃ m, decode bytes = .ok m ∧ m.spans = #[⟨8, 13⟩, ⟨13, 18⟩] ∧
      (∃ fault, decode (bytes.take 5) = .error (.invalidModule fault)) ∧
      (∃ m', decode (bytes.take 13) = .ok m' ∧ m'.placed = [(.memories [⟨2, none⟩], ⟨8, 13⟩)]) ∧
      decode (bytes.take 15) = .error (.truncated 15) := by
  intro bytes
  have hdecode : (decode bytes).toOption.map (fun m => (m.sections, m.spans)) =
      some (#[.memories [⟨2, none⟩], .functions [7]], #[⟨8, 13⟩, ⟨13, 18⟩]) := by
    decide +kernel
  obtain ⟨m, hm, hparts⟩ := exists_of_toOption_map hdecode
  obtain ⟨hsections, hspans⟩ := Prod.mk.inj hparts
  obtain ⟨m', hm', hplaced, -⟩ := (decode_take hm 13 (by decide)).2.1 (.inr (by simp [hspans]))
  refine ⟨m, hm, hspans, (decode_take hm 5 (by decide)).1 (by decide), ⟨m', hm', ?_⟩,
    (decode_take hm 15 (by decide)).2.2 (by decide) (by simp [hspans])⟩
  rw [hplaced, Module.placed, hsections, hspans]
  decide

end StackVm
