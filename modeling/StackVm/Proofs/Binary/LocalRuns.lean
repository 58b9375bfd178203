import StackVm.Binary.Writer
import StackVm.Proofs.Binary.Grammar

/-!
# Runs of locals

Locals are written as runs of equal types (`localRuns`).

* `expandRuns_localRuns`: the runs stand for the locals they were made from;
* `length_localRuns_le`, `length_flatMap_ofRun_le`: no declarations of the same
  locals are fewer, and none take fewer bytes.

The last two go by induction on the declarations. One more declaration in
front either becomes a run of its own or joins the first run, and the number
of the joined run is spelled in no more bytes than the two it came from.
-/

namespace StackVm

theorem expandRuns_cons (n : Nat) (t : ValueType) (runs : List (Nat × ValueType)) :
    expandRuns ((n, t) :: runs) = List.replicate n t ++ expandRuns runs := rfl

theorem localRuns_cons (t : ValueType) (locals : List ValueType) :
    localRuns (t :: locals) = consRun t (localRuns locals) := rfl

theorem expandRuns_consRun (t : ValueType) (runs : List (Nat × ValueType)) :
    expandRuns (consRun t runs) = t :: expandRuns runs := by
  cases runs with
  | nil => rfl
  | cons run runs =>
    obtain ⟨n, u⟩ := run
    rw [consRun]
    split
    · next h =>
      subst h
      rfl
    · rfl

/-- The runs stand for the locals they were made from. -/
theorem expandRuns_localRuns (locals : List ValueType) : expandRuns (localRuns locals) = locals := by
  induction locals with
  | nil => rfl
  | cons t locals ih => rw [localRuns_cons, expandRuns_consRun, ih]

/-- Equal locals in front of others become a run of their own, or join the
first one. -/
theorem localRuns_replicate_append (n : Nat) (t : ValueType) (locals : List ValueType) :
    localRuns (List.replicate (n + 1) t ++ locals) = (n + 1, t) :: localRuns locals ∨
      ∃ m runs, localRuns locals = (m, t) :: runs ∧
        localRuns (List.replicate (n + 1) t ++ locals) = (n + 1 + m, t) :: runs := by
  induction n with
  | zero =>
    show consRun t (localRuns locals) = _ ∨ _
    match hruns : localRuns locals with
    | [] => exact .inl rfl
    | (m, u) :: runs =>
      by_cases h : t = u
      · subst h
        refine .inr ⟨m, runs, rfl, ?_⟩
        show consRun t (localRuns locals) = _
        rw [hruns, consRun, if_pos rfl, Nat.add_comm m]
      · exact .inl (by rw [consRun, if_neg h])
  | succ n ih =>
    have hcons : localRuns (List.replicate (n + 1 + 1) t ++ locals) =
        consRun t (localRuns (List.replicate (n + 1) t ++ locals)) := rfl
    rw [hcons]
    rcases ih with h | ⟨m, runs, hruns, h⟩
    · exact .inl (by rw [h, consRun, if_pos rfl])
    · refine .inr ⟨m, runs, hruns, ?_⟩
      rw [h, consRun, if_pos rfl, Nat.add_right_comm]

/-- No declarations of the same locals are fewer. -/
theorem length_localRuns_le (runs : List (Nat × ValueType)) :
    (localRuns (expandRuns runs)).length ≤ runs.length := by
  induction runs with
  | nil => exact Nat.le_refl _
  | cons run runs ih =>
    obtain ⟨n, t⟩ := run
    rw [expandRuns_cons]
    match n with
    | 0 => exact Nat.le_succ_of_le ih
    | n + 1 =>
      rcases localRuns_replicate_append n t (expandRuns runs) with h | ⟨m, rest, hrest, h⟩
      · rw [h]
        exact Nat.succ_le_succ ih
      · rw [h]
        rw [hrest] at ih
        exact Nat.le_succ_of_le ih

/-- There are no more runs than locals. -/
theorem length_localRuns_le_length (locals : List ValueType) :
    (localRuns locals).length ≤ locals.length := by
  have h := length_localRuns_le (locals.map fun t => (1, t))
  have hexpand : expandRuns (locals.map fun t => (1, t)) = locals := by
    simp [expandRuns, List.flatMap_map]
  rwa [hexpand, List.length_map] at h

/-- No run is longer than the locals. -/
theorem le_length_of_mem_localRuns {locals : List ValueType} {run : Nat × ValueType}
    (h : run ∈ localRuns locals) : run.1 ≤ locals.length := by
  have hsub := List.sublist_flatten_of_mem
    (List.mem_map_of_mem (f := fun run : Nat × ValueType => List.replicate run.1 run.2) h)
  have hle : (List.replicate run.1 run.2).length ≤ (expandRuns (localRuns locals)).length := hsub.length_le
  rwa [expandRuns_localRuns, List.length_replicate] at hle

theorem length_ofRun (n : Nat) (t : ValueType) :
    (Bytes.ofRun (n, t)).length = (Leb128.ofNat (n % 2 ^ 32)).length + 1 := by
  rw [Bytes.ofRun, List.length_append, Bytes.ofLength, Leb128.ofUInt32, UInt32.toNat_ofNat']
  rfl

/-- No declarations of the same locals take fewer bytes. -/
theorem length_flatMap_ofRun_le (runs : List (Nat × ValueType)) :
    ((localRuns (expandRuns runs)).flatMap Bytes.ofRun).length ≤ (runs.flatMap Bytes.ofRun).length := by
  induction runs with
  | nil => exact Nat.le_refl _
  | cons run runs ih =>
    obtain ⟨n, t⟩ := run
    rw [expandRuns_cons, List.flatMap_cons, List.length_append]
    match n with
    | 0 => exact Nat.le_trans ih (Nat.le_add_left _ _)
    | n + 1 =>
      rcases localRuns_replicate_append n t (expandRuns runs) with h | ⟨m, rest, hrest, h⟩
      · rw [h, List.flatMap_cons, List.length_append]
        omega
      · rw [hrest, List.flatMap_cons, List.length_append, length_ofRun] at ih
        rw [h, List.flatMap_cons, List.length_append, length_ofRun, length_ofRun]
        have hmod : (n + 1 + m) % 2 ^ 32 ≤ (n + 1) % 2 ^ 32 + m % 2 ^ 32 := by omega
        have hadd := Leb128.length_ofNat_add_le ((n + 1) % 2 ^ 32) (m % 2 ^ 32)
        have hmono := Leb128.length_ofNat_mono hmod
        omega

end StackVm
