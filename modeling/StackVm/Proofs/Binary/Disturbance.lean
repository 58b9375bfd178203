import StackVm.Proofs.Binary.Frames

/-!
# Sources that fail

What decoding comes to on a source that fails after some bytes, put by what it
comes to on these bytes alone (`decodeNamed_disturbed`). The answer is in how
the bytes end: between frames, inside a size, inside a content, or behind a
frame that is refused, in which case nobody asks for more than there is.

* `Read.Heedless`: readers that do the same whatever follows the bytes, such as
  the one of the opening bytes;
* `EndsAt`: how the bytes of frames end, which is in one way or another for all
  byte strings (`exists_endsAt`);
* `EndsAt.exists_scanFrames`: what a scan of them comes to on any source.
-/

namespace StackVm

open Leb128 (Spells)

/-! ## Opening bytes -/

/-- The reader, with another thing to come after its bytes. -/
def Reader.failing (failure : Option Failure) (r : Reader) : Reader :=
  { r with failure }

namespace Read

variable {α β : Type}

/-- The action does the same whatever comes after the bytes. -/
def Heedless (action : Read α) : Prop :=
  ∀ failure r, action (r.failing failure) =
    match action r with
    | .ok a r' => .ok a (r'.failing failure)
    | .error e r' => .error e (r'.failing failure)

theorem heedless_pure (a : α) : Heedless (pure a) := fun _ _ => rfl

theorem heedless_throw (e : DecodeError) : Heedless (throw e : Read α) := fun _ _ => rfl

theorem Heedless.bind {action : Read α} {next : α → Read β} (h : Heedless action)
    (h' : ∀ a, Heedless (next a)) : Heedless (action >>= next) := by
  intro failure r
  simp only [Bind.bind, EStateM.bind, h failure r]
  cases action r with
  | ok a r' => exact h' a failure r'
  | error e r' => rfl

theorem Heedless.ite {c : Prop} {_ : Decidable c} {action other : Read α} (h : Heedless action)
    (h' : Heedless other) : Heedless (if c then action else other) := by
  split
  · exact h
  · exact h'

/-- A word tells how its bytes end, but nobody hears of it. -/
theorem heedless_orFault_word (fault : ModuleFault) : Heedless (word.orFault fault) := by
  rintro failure ⟨⟨bytes, _⟩, pos⟩
  match bytes with
  | [] | [_] | [_, _] | [_, _, _] | _ :: _ :: _ :: _ :: _ => rfl

theorem heedless_preamble : Heedless preamble :=
  (heedless_orFault_word _).bind fun _ => (heedless_throw _).ite <|
    (heedless_orFault_word _).bind fun _ => (heedless_throw _).ite (heedless_pure _)

end Read

theorem scan_of_preamble_error {bytes : List UInt8} {e : DecodeError} {r : Reader}
    (h : Read.preamble (.ofBytes bytes) = .error e r) (failure : Option Failure) :
    scan ⟨bytes, failure⟩ = { frames := #[], outcome := .error e } := by
  have hpre := Read.heedless_preamble failure (.ofBytes bytes)
  rw [h] at hpre
  rw [scan, show Read.preamble (.ofSource ⟨bytes, failure⟩) = .error e (r.failing failure) from hpre]

/-! ## Frames -/

/-- How the bytes of frames may end. -/
inductive Ending
  /-- Between frames. -/
  | complete
  /-- Inside the size of a frame. -/
  | inSize
  /-- Inside the content of a frame, which starts at `base`. -/
  | inContent (base : Nat)
  /-- With a content that is all there and refused for `e`, or behind it. -/
  | refused (e : DecodeError)

/-- The bytes of frames, the first of which starts at `pos`, end in a certain
way. -/
inductive EndsAt : Nat → List UInt8 → Ending → Prop
  | complete {pos : Nat} : EndsAt pos [] .complete
  | inSize {pos : Nat} {id : UInt8} {size : List UInt8} :
    (∀ b ∈ size, 128 ≤ b.toNat) → EndsAt pos (id :: size) .inSize
  | inContent {pos : Nat} {id : UInt8} {size content : List UInt8} {n : UInt32} :
    Spells size n → content.length < n.toNat →
      EndsAt pos (id :: (size ++ content)) (.inContent (pos + (id :: size).length))
  | refused {pos : Nat} {id : UInt8} {size content rest : List UInt8} {n : UInt32} {e : DecodeError} :
    Spells size n → n.toNat = content.length → Section.read id content = .error e →
      EndsAt pos (id :: (size ++ content) ++ rest) (.refused (e.rebase (pos + (id :: size).length)))
  | frame {pos : Nat} {front back : List UInt8} {f : Framed} {ending : Ending} :
    FrameAt pos front f → EndsAt (pos + front.length) back ending → EndsAt pos (front ++ back) ending

/-- All bytes end in some way. -/
theorem exists_endsAt (pos : Nat) (bytes : List UInt8) : ∃ ending, EndsAt pos bytes ending := by
  match bytes with
  | [] => exact ⟨_, .complete⟩
  | id :: bytes =>
    rcases exists_content bytes with hnone | ⟨size, n, content, hsize, hshort, rfl⟩ |
      ⟨size, n, content, rest, hsize, hlen, hbytes⟩
    · exact ⟨_, .inSize (Leb128.read_eq_none_iff.1 hnone)⟩
    · exact ⟨_, .inContent hsize hshort⟩
    rw [hbytes, ← List.cons_append]
    cases hread : Section.read id content with
    | error e => exact ⟨_, .refused hsize hlen hread⟩
    | ok read =>
      obtain ⟨ending, hending⟩ := exists_endsAt (pos + (id :: (size ++ content)).length) rest
      exact ⟨ending, .frame (.intro hsize hlen hread) hending⟩
termination_by bytes.length
decreasing_by
  rw [hbytes]
  simp only [List.length_cons, List.length_append]
  omega

/-- What a scan comes to that finds such an ending, on a source of which the
bytes stop at `stop`. -/
def Ending.outcome (failure : Option Failure) (stop : Nat) : Ending → Except DecodeError Nat
  | complete =>
    match failure with
    | some ⟨.other, text⟩ => .error (.readFailed stop text)
    | _ => .ok stop
  | inSize => .error (Reader.ending ⟨⟨[], failure⟩, stop⟩)
  | inContent base =>
    match failure with
    | some f => .error (.readFailed base f.text)
    | none => .error (.truncated stop)
  | refused e => .error e

/-- A scan finds the ending that there is, behind frames that do not depend on
what comes after the bytes. -/
theorem EndsAt.exists_scanFrames {pos : Nat} {bytes : List UInt8} {ending : Ending}
    (h : EndsAt pos bytes ending) (done : Array Framed) : ∃ frames, ∀ failure,
    scanFrames ⟨⟨bytes, failure⟩, pos⟩ done =
      { frames, outcome := ending.outcome failure (pos + bytes.length) } := by
  induction h generalizing done with
  | complete =>
    refine ⟨done, fun failure => ?_⟩
    rw [scanFrames]
    rcases failure with _ | ⟨_ | _, text⟩ <;> rfl
  | inSize hsize =>
    refine ⟨done, fun failure => ?_⟩
    obtain ⟨r, hr⟩ := Read.frame?_of_unfinished (Leb128.read_eq_none_iff.2 hsize) _
    exact scanFrames_of_error hr done
  | inContent hsize hshort =>
    refine ⟨done, fun failure => ?_⟩
    cases failure with
    | none =>
      obtain ⟨r, hr⟩ := Read.frame?_of_short hsize hshort _
      exact scanFrames_of_error hr done
    | some f =>
      obtain ⟨r, hr⟩ := Read.frame?_of_short hsize hshort _
      exact scanFrames_of_error hr done
  | @refused pos id size content rest n e hsize hlen hread =>
    refine ⟨done, fun failure => ?_⟩
    have hframe := @Read.frame?_of_content failure pos size content n hsize hlen id rest
    rw [hread] at hframe
    exact scanFrames_of_error hframe done
  | @frame pos front back f ending hf _ ih =>
    obtain ⟨frames, hframes⟩ := ih (done.push f)
    refine ⟨frames, fun failure => ?_⟩
    rw [scanFrames_of_frame (hf.frame?_append back failure), hframes, List.length_append, Nat.add_assoc]

/-- The content that bytes end inside starts among them. -/
theorem EndsAt.base_le {pos base : Nat} {bytes : List UInt8} (h : EndsAt pos bytes (.inContent base)) :
    base ≤ pos + bytes.length := by
  generalize hending : Ending.inContent base = ending at h
  induction h with
  | complete | inSize | refused => cases hending
  | inContent =>
    cases hending
    simp only [List.length_cons, List.length_append]
    omega
  | frame _ _ ih =>
    have := ih hending
    rw [List.length_append]
    omega

/-! ## Decoding -/

/-- What is decoded from frames that end in a certain way, on any source. -/
theorem EndsAt.exists_decodeNamed {frames : List UInt8} {ending : Ending} (h : EndsAt 8 frames ending)
    (name : String) : ∃ m, ∀ failure, decodeNamed name ⟨opening ++ frames, failure⟩ =
      (ending.outcome failure (opening ++ frames).length).map fun _ => m := by
  obtain ⟨found, hfound⟩ := h.exists_scanFrames #[]
  refine ⟨Scan.toModule ⟨found, .ok 0⟩ name, fun failure => ?_⟩
  rw [decodeNamed, scan_opening_append, hfound, List.length_append]
  rfl

/-- Bytes are no module from the start, on any source, or open one and end in
some way. -/
theorem exists_fault_or_endsAt (name : String) (bytes : List UInt8) :
    (∃ fault, ∀ failure, decodeNamed name ⟨bytes, failure⟩ = .error (.invalidModule fault)) ∨
    ∃ frames ending, bytes = opening ++ frames ∧ EndsAt 8 frames ending := by
  cases hpre : Read.preamble (.ofBytes bytes) with
  | error e r =>
    obtain ⟨fault, rfl⟩ := Read.exists_fault_of_preamble hpre
    refine .inl ⟨fault, fun failure => ?_⟩
    rw [decodeNamed, scan_of_preamble_error hpre]
    rfl
  | ok _ r =>
    obtain ⟨_, frames, hbytes, rfl, -⟩ := (Read.reads_preamble bytes 0 () r).1 hpre
    obtain ⟨ending, hending⟩ := exists_endsAt 8 frames
    exact .inr ⟨frames, ending, hbytes, hending⟩

/-- Decoding from a source that fails after `count` bytes, against decoding just
these bytes. A failure is never taken for the end of a module. What is no module
from the start, and a content that is refused, are found before the source is
asked for more. Otherwise the failure is reported, at the end of the bytes or at
the start of a content that they end in; only a failure that claims to be the end
of the input is taken for it, and in a content not even that. -/
theorem decodeNamed_disturbed (name : String) (bytes : List UInt8) {count : Nat}
    (hcount : count ≤ bytes.length) (text : String) :
    let delivered := bytes.take count
    let result := decodeNamed name (.ofBytes delivered)
    let failing := fun kind => decodeNamed name (.disturbed bytes count (.failure ⟨kind, text⟩))
    (∀ m, failing .other ≠ .ok m) ∧
    (∀ fault, result = .error (.invalidModule fault) → ∀ kind, failing kind = result) ∧
    ((∃ fault, result = .error (.invalidModule fault)) ∨
      ∃ frames ending, delivered = opening ++ frames ∧ EndsAt 8 frames ending) ∧
    ∀ frames ending, delivered = opening ++ frames → EndsAt 8 frames ending →
      match ending with
      | .complete => (∃ m, result = .ok m) ∧ failing .other = .error (.readFailed count text) ∧
          failing .endOfInput = result
      | .inSize => result = .error (.truncated count) ∧ failing .other = .error (.readFailed count text) ∧
          failing .endOfInput = result
      | .inContent base => base ≤ count ∧ result = .error (.truncated count) ∧
          ∀ kind, failing kind = .error (.readFailed base text)
      | .refused e => result = .error e ∧ ∀ kind, failing kind = result := by
  intro delivered result failing
  have hlen : delivered.length = count := by
    rw [List.length_take]
    omega
  have hfailing : ∀ kind, failing kind = decodeNamed name ⟨delivered, some ⟨kind, text⟩⟩ := by
    intro kind
    simp only [failing, Source.disturbed, if_pos hcount, delivered]
  -- one module is behind all sources, so how the bytes end is all that is left to tell them apart
  have hends : ∀ frames ending, delivered = opening ++ frames → EndsAt 8 frames ending →
      ∃ m, result = (ending.outcome none count).map (fun _ => m) ∧
        ∀ kind, failing kind = (ending.outcome (some ⟨kind, text⟩) count).map fun _ => m := by
    intro frames ending hdelivered hending
    obtain ⟨m, hm⟩ := hending.exists_decodeNamed name
    rw [← hdelivered, hlen] at hm
    exact ⟨m, hm none, fun kind => (hfailing kind).trans (hm _)⟩
  have hcases := exists_fault_or_endsAt name delivered
  refine ⟨?_, ?_, hcases.imp_left fun ⟨fault, hfault⟩ => ⟨fault, hfault none⟩, ?_⟩
  · intro m hm
    rcases hcases with ⟨fault, hfault⟩ | ⟨frames, ending, hdelivered, hending⟩
    · rw [hfailing, hfault] at hm
      cases hm
    · obtain ⟨m', -, hother⟩ := hends frames ending hdelivered hending
      rw [hother] at hm
      cases ending <;> cases hm
  · intro fault hresult kind
    rcases hcases with ⟨fault', hfault⟩ | ⟨frames, ending, hdelivered, hending⟩
    · exact (hfailing kind).trans ((hfault _).trans (hfault none).symm)
    · obtain ⟨m', hclean, hfails⟩ := hends frames ending hdelivered hending
      cases ending with
      | complete | inSize | inContent => cases hclean.symm.trans hresult
      | refused e => exact (hfails kind).trans hclean.symm
  · intro frames ending hdelivered hending
    obtain ⟨m, hclean, hfails⟩ := hends frames ending hdelivered hending
    cases ending with
    | complete => exact ⟨⟨m, hclean⟩, hfails .other, (hfails .endOfInput).trans hclean.symm⟩
    | inSize => exact ⟨hclean, hfails .other, (hfails .endOfInput).trans hclean.symm⟩
    | inContent base =>
      have hbase := hending.base_le
      have hstop : count = 8 + frames.length := by
        rw [← hlen, hdelivered, List.length_append]
        rfl
      exact ⟨by omega, hclean, hfails⟩
    | refused e => exact ⟨hclean, fun kind => (hfails kind).trans hclean.symm⟩

/-- A memory, from sources that fail behind it, behind its number, and inside its
content. -/
theorem decodeNamed_disturbed_memory :
    let bytes := opening ++ [5, 3, 1, 0, 2]
    let failing := fun count kind => decodeNamed "m" (.disturbed bytes count (.failure ⟨kind, "gone"⟩))
    bytes.length = 13 ∧
      failing 13 .other = .error (.readFailed 13 "gone") ∧ (∃ m, failing 13 .endOfInput = .ok m) ∧
      failing 9 .other = .error (.readFailed 9 "gone") ∧ failing 9 .endOfInput = .error (.truncated 9) ∧
      ∀ kind, failing 11 kind = .error (.readFailed 10 "gone") := by
  intro bytes failing
  have hsize : Spells [3] 3 := ⟨.last (by decide), by decide⟩
  have hframe : FrameAt 8 [5, 3, 1, 0, 2]
      { id := 5, size := 3, span := ⟨8, 13⟩, content := .memories [⟨2, none⟩], trailing := 0 } :=
    @FrameAt.intro 8 5 [3] [1, 0, 2] 3 _ 0 hsize rfl (by cbv)
  obtain ⟨⟨m, hm⟩, hother, hend⟩ := (decodeNamed_disturbed "m" bytes (by decide : 13 ≤ _) "gone").2.2.2
    [5, 3, 1, 0, 2] .complete rfl (.frame hframe .complete)
  obtain ⟨htruncated, hother', hend'⟩ := (decodeNamed_disturbed "m" bytes (by decide : 9 ≤ _) "gone").2.2.2
    [5] .inSize rfl (.inSize (by simp))
  obtain ⟨-, -, hall⟩ := (decodeNamed_disturbed "m" bytes (by decide : 11 ≤ _) "gone").2.2.2
    [5, 3, 1] (.inContent 10) rfl (@EndsAt.inContent 8 5 [3] [1] 3 hsize (by decide))
  exact ⟨rfl, hother, ⟨m, hend.trans hm⟩, hother', hend'.trans htruncated, hall⟩

end StackVm
