import Mathlib.Data.List.Chain
import StackVm.Proofs.Binary.Encoding

/-!
# Declarations of locals

The same locals can be declared in many ways: a run of equal types may come in pieces, or
with nothing in a piece, and numbers may be spelled at length. The runs that are written
are the only ones without empty runs and without neighbours of one type, and nothing that
declares the same locals is shorter (`localRuns_canonical_shortest`).

* `canonicalRuns_localRuns`: one more local in front makes a run of its own or lengthens
  the first run, and either way the runs stay canonical;
* `CanonicalRuns.localRuns_expandRuns`: canonical runs are what is made of their locals.
-/

namespace StackVm

/-- No run is empty, and no two runs of one type stand next to each other. -/
structure CanonicalRuns (runs : List (Nat × ValueType)) : Prop where
  pos : ∀ run ∈ runs, 1 ≤ run.1
  differ : runs.IsChain fun first second => first.2 ≠ second.2

theorem CanonicalRuns.tail {run : Nat × ValueType} {runs : List (Nat × ValueType)}
    (h : CanonicalRuns (run :: runs)) : CanonicalRuns runs where
  pos other hother := h.pos other (List.mem_cons_of_mem _ hother)
  differ := h.differ.tail

theorem CanonicalRuns.consRun {runs : List (Nat × ValueType)} (h : CanonicalRuns runs) (t : ValueType) :
    CanonicalRuns (consRun t runs) := by
  match runs with
  | [] => exact ⟨by simp [StackVm.consRun], .singleton _⟩
  | (n, u) :: runs =>
    rw [StackVm.consRun]
    split
    · -- the first run grows, and its type stays
      refine ⟨List.forall_mem_cons.2 ⟨Nat.le_add_left 1 n, h.tail.pos⟩, ?_⟩
      exact List.isChain_cons.2 (List.isChain_cons.1 h.differ)
    · next hne => exact ⟨List.forall_mem_cons.2 ⟨Nat.le_refl 1, h.pos⟩, .cons_cons hne h.differ⟩

theorem canonicalRuns_localRuns (locals : List ValueType) : CanonicalRuns (localRuns locals) := by
  induction locals with
  | nil => exact ⟨nofun, .nil⟩
  | cons t locals ih => exact ih.consRun t

/-- Canonical runs are what is made of the locals that they stand for. -/
theorem CanonicalRuns.localRuns_expandRuns {runs : List (Nat × ValueType)} (h : CanonicalRuns runs) :
    localRuns (expandRuns runs) = runs := by
  induction runs with
  | nil => rfl
  | cons run runs ih =>
    obtain ⟨n, t⟩ := run
    have ih := ih h.tail
    obtain ⟨k, rfl⟩ : ∃ k, n = k + 1 := ⟨n - 1, by have := h.pos _ List.mem_cons_self; omega⟩
    rw [expandRuns_cons]
    rcases localRuns_replicate_append k t (expandRuns runs) with hown | ⟨m, rest, hfirst, -⟩
    · rw [hown, ih]
    · -- the next run would be of the same type
      rw [ih] at hfirst
      subst hfirst
      exact absurd rfl (List.isChain_cons_cons.1 h.differ).1

/-- Locals are written as runs that stand for them. These are canonical, and no others that
stand for the locals are. Their counts are written in full, so that they are read back, and
no declarations that expand to the same locals take fewer bytes. -/
theorem localRuns_canonical_shortest {locals : List ValueType} (h : locals.length < 2 ^ 32) :
    expandRuns (localRuns locals) = locals ∧ CanonicalRuns (localRuns locals) ∧
    (∀ runs, CanonicalRuns runs → expandRuns runs = locals → runs = localRuns locals) ∧
    (∀ run ∈ localRuns locals, run.1 < 2 ^ 32) ∧
    CountedForm DeclarationForm (Bytes.ofVector Bytes.ofRun (localRuns locals)) (localRuns locals) ∧
    ∀ bytes runs, CountedForm DeclarationForm bytes runs → expandRuns runs = locals →
      (Bytes.ofVector Bytes.ofRun (localRuns locals)).length ≤ bytes.length := by
  refine ⟨expandRuns_localRuns locals, canonicalRuns_localRuns locals, fun runs hruns hexpand => ?_,
    fun run hrun => ?_, countedForm_localRuns h, fun bytes runs hbytes hexpand => ?_⟩
  · rw [← hexpand, hruns.localRuns_expandRuns]
  · exact Nat.lt_of_le_of_lt (le_length_of_mem_localRuns hrun) h
  · rw [← hexpand]
    exact hbytes.length_ofVector_localRuns_le

/-- Four locals in five declarations: an `i32`, no `i64`, another `i32`, an `i64` with a
number of three bytes, and an `i32`. They are written in three runs and seven bytes. -/
theorem localRuns_canonical_shortest_split :
    let locals : List ValueType := [.i32, .i32, .i64, .i32]
    let bytes : List UInt8 := [0x85, 0x00, 1, 0x7f, 0, 0x7e, 1, 0x7f, 0x81, 0x80, 0x00, 0x7e, 1, 0x7f]
    CountedForm DeclarationForm bytes [(1, .i32), (0, .i64), (1, .i32), (1, .i64), (1, .i32)] ∧
      localRuns locals = [(2, .i32), (1, .i64), (1, .i32)] ∧
      Bytes.ofVector Bytes.ofRun (localRuns locals) = [3, 2, 0x7f, 1, 0x7e, 1, 0x7f] ∧
      (Bytes.ofVector Bytes.ofRun (localRuns locals)).length ≤ bytes.length := by
  intro locals bytes
  have hfive : Leb128.Spells [0x85, 0x00] 5 := ⟨.cons (by decide) (.last (by decide)), rfl⟩
  have hzero : Leb128.Spells [0] 0 := ⟨.last (by decide), rfl⟩
  have hone : Leb128.Spells [1] 1 := ⟨.last (by decide), rfl⟩
  have hlong : Leb128.Spells [0x81, 0x80, 0x00] 1 :=
    ⟨.cons (by decide) (.cons (by decide) (.last (by decide))), rfl⟩
  have hi32 : DeclarationForm [1, 0x7f] (1, .i32) := .intro (t := .i32) hone
  have hnone : DeclarationForm [0, 0x7e] (0, .i64) := .intro (t := .i64) hzero
  have hi64 : DeclarationForm [0x81, 0x80, 0x00, 0x7e] (1, .i64) := .intro (t := .i64) hlong
  have hcounted : CountedForm DeclarationForm bytes [(1, .i32), (0, .i64), (1, .i32), (1, .i64), (1, .i32)] :=
    .intro hfive rfl (.cons hi32 (.cons hnone (.cons hi32 (.cons hi64 (.cons hi32 .nil)))))
  have hlength : locals.length < 2 ^ 32 := by decide
  refine ⟨hcounted, by decide, by decide +kernel, ?_⟩
  exact (localRuns_canonical_shortest hlength).2.2.2.2.2 bytes _ hcounted rfl

end StackVm
