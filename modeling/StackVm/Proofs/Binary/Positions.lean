import StackVm.Proofs.Binary.Truncation

/-!
# Where sections stand

The ranges that are recorded for the sections of a module cover it, without a gap
and without an overlap (`Tiles`), and in each of them stands the frame of its
section (`FramedIn`): `decode_positions`.

* `FramesAt.tiles`: frames one after another tile their bytes;
* `FramesAt.exists_frameAt`: each of them stands somewhere among the others;
* `exists_framedIn_of_decode`: what this comes to for the sections of a module.
-/

namespace StackVm

open Leb128 (Spells)

/-- Ranges one after another, from `start` up to `stop`. -/
def Tiles : Nat → Nat → List Span → Prop
  | start, stop, [] => start = stop
  | start, stop, s :: spans => s.start = start ∧ Tiles s.stop stop spans

/-- In a range of `bytes` stands the frame of a section: the number of the section,
the size of the content in any spelling, and just so many bytes of content, which
are read as the section. -/
inductive FramedIn (bytes : List UInt8) (span : Span) (s : Section) (content : List UInt8) : Prop
  | intro {before size after : List UInt8} {n : UInt32} {trailing : Nat} :
    bytes = before ++ s.id :: (size ++ content) ++ after →
    span = ⟨before.length, (before ++ s.id :: (size ++ content)).length⟩ →
    Spells size n → n.toNat = content.length → Section.read s.id content = .ok (s, trailing) →
      FramedIn bytes span s content

variable {pos : Nat} {bytes content : List UInt8} {f : Framed} {frames : List Framed} {m : Module} {s : Section}
  {span : Span}

/-! ## Frames -/

/-- A content is read as a section that is written under the same number. -/
theorem Section.id_of_read {id : UInt8} {trailing : Nat} (h : Section.read id content = .ok (s, trailing)) :
    s.id = id := by
  cases Section.contentForm_of_read h <;> rfl

theorem FramesAt.tiles (h : FramesAt pos bytes frames) :
    Tiles pos (pos + bytes.length) (frames.map Framed.span) := by
  induction h with
  | nil => rfl
  | @cons pos front back f frames hf _ ih =>
    rw [List.length_append, ← Nat.add_assoc, List.map_cons, hf.span_eq]
    exact ⟨rfl, ih⟩

/-- Each frame stands behind some bytes and in front of others. -/
theorem FramesAt.exists_frameAt (h : FramesAt pos bytes frames) (hf : f ∈ frames) :
    ∃ before front after, bytes = before ++ front ++ after ∧ FrameAt (pos + before.length) front f := by
  induction h with
  | nil => cases hf
  | @cons pos first back g frames hg _ ih =>
    rcases List.mem_cons.1 hf with rfl | hf
    · exact ⟨[], first, back, rfl, hg⟩
    · obtain ⟨before, front, after, rfl, hframe⟩ := ih hf
      refine ⟨first ++ before, front, after, by simp, ?_⟩
      rwa [List.length_append, ← Nat.add_assoc]

theorem FrameAt.framedIn {before front after : List UInt8} (h : FrameAt before.length front f) :
    ∃ content, FramedIn (before ++ front ++ after) f.span f.content content := by
  obtain @⟨id, size, content, n, s, trailing, hsize, hlen, hread⟩ := h
  obtain rfl := Section.id_of_read hread
  refine ⟨content, .intro rfl ?_ hsize hlen hread⟩
  simp

/-! ## Decoding -/

/-- Each section of a module that was decoded stands in its frame. -/
theorem exists_framedIn_of_decode (h : decode bytes = .ok m) (hs : (s, span) ∈ m.placed) :
    ∃ content, FramedIn bytes span s content := by
  obtain ⟨rest, frames, rfl, hframes, hrecords⟩ := exists_framesAt_of_decode h
  rw [hrecords.placed_eq, List.mem_map] at hs
  obtain ⟨f, hf, heq⟩ := hs
  cases heq
  obtain ⟨before, front, after, rfl, hframe⟩ := hframes.exists_frameAt hf
  have hstart : 8 + before.length = (opening ++ before).length := by
    rw [List.length_append]
    rfl
  rw [hstart] at hframe
  obtain ⟨content, hcontent⟩ := @FrameAt.framedIn f (opening ++ before) front after hframe
  refine ⟨content, ?_⟩
  rwa [List.append_assoc opening, List.append_assoc opening] at hcontent

/-- The recorded ranges of a module that was decoded: there is one for each
section, they cover the bytes behind the opening ones without a gap, and in each of
them stands the frame of its section. -/
theorem decode_positions (h : decode bytes = .ok m) :
    m.sections.size = m.spans.size ∧ Tiles 8 bytes.length m.spans.toList ∧
    ∀ s span, (s, span) ∈ m.placed → ∃ content, bytes[span.start]? = some s.id ∧
      FramedIn bytes span s content := by
  obtain ⟨rest, frames, rfl, hframes, hrecords⟩ := exists_framesAt_of_decode h
  refine ⟨hrecords.size_eq, ?_, fun s span hs => ?_⟩
  · rw [hrecords.spans_eq, List.length_append]
    exact hframes.tiles
  · obtain ⟨content, hcontent⟩ := exists_framedIn_of_decode h hs
    refine ⟨content, ?_, hcontent⟩
    obtain ⟨hbytes, hspan, -⟩ := hcontent
    rw [hbytes, hspan]
    simp

/-- A memory, function indices behind a size of two bytes and in front of two bytes
that mean nothing, and an unknown section without content. -/
theorem decode_positions_memory :
    let bytes := opening ++ [5, 3, 1, 0, 2, 3, 0x84, 0x00, 1, 7, 0xaa, 0xbb, 9, 0]
    ∃ m, decode bytes = .ok m ∧ m.spans = #[⟨8, 13⟩, ⟨13, 20⟩, ⟨20, 22⟩] ∧
      Tiles 8 bytes.length m.spans.toList ∧
      ∃ content, bytes[13]? = some 3 ∧ FramedIn bytes ⟨13, 20⟩ (.functions [7]) content := by
  intro bytes
  have hdecode : (decode bytes).toOption.map (fun m => (m.sections, m.spans)) =
      some (#[.memories [⟨2, none⟩], .functions [7], .unknown 9 []], #[⟨8, 13⟩, ⟨13, 20⟩, ⟨20, 22⟩]) := by
    decide +kernel
  obtain ⟨m, hm, hparts⟩ := exists_of_toOption_map hdecode
  obtain ⟨hsections, hspans⟩ := Prod.mk.inj hparts
  obtain ⟨-, htiles, hframed⟩ := decode_positions hm
  refine ⟨m, hm, hspans, htiles, hframed (.functions [7]) ⟨13, 20⟩ ?_⟩
  rw [Module.placed, hsections, hspans]
  decide

end StackVm
