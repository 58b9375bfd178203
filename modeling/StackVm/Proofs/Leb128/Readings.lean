import Mathlib.Algebra.BigOperators.Fin
import StackVm.Binary.Reader
import StackVm.Machine.Thread
import StackVm.Proofs.Leb128.Signed

/-!
# Where LEB128 integers end and what they stand for

A number ends with the first byte whose high bit is clear, and its groups of seven
bits make up one string of bits, the first group at its low end. A reader and an
instruction take just the bytes of the number, however many these are:

* `unsigned_of_groups`: the unsigned reading is the sum of the groups with their
  weights, reduced to a word;
* `signed_of_groups`: the signed reading is what the string of bits stands for in
  two's complement, reduced to a word. Its sign is bit 6 of the last byte.

Both follow from what the groups are that are read (`read_eq`). If no byte ends the
number, all bytes are taken and the reading fails.
-/

namespace StackVm

namespace Leb128

/-- Whether the high bit of `b` is clear: no other byte of the number follows. -/
def isLast (b : UInt8) : Bool :=
  b &&& 0x80 == 0

/-- The sum of the groups of seven bits in a byte string, each with its weight. -/
def groupSum (bytes : List UInt8) : Nat :=
  ∑ i : Fin bytes.length, (bytes[i] &&& 0x7f).toNat * 2 ^ (7 * i.val)

/-- The groups of seven bits in a byte string as one string of bits. -/
def joined (bytes : List UInt8) : BitVec (7 * bytes.length) :=
  BitVec.ofNat (7 * bytes.length) (groupSum bytes)

/-! ## Values of groups -/

theorem groupSum_cons (b : UInt8) (bytes : List UInt8) :
    groupSum (b :: bytes) = (b &&& 0x7f).toNat + 128 * groupSum bytes := by
  rw [groupSum, groupSum, Finset.mul_sum]
  refine (Fin.sum_univ_succ _).trans ?_
  congr 1
  · simp
  · refine Finset.sum_congr rfl fun i _ => ?_
    have hpow : 2 ^ (7 * (i.val + 1)) = 128 * 2 ^ (7 * i.val) := by
      rw [Nat.mul_succ, Nat.pow_add, Nat.mul_comm]
    show (bytes[i] &&& 0x7f).toNat * 2 ^ (7 * (i.val + 1)) = _
    rw [hpow, Nat.mul_left_comm]

theorem toNat_and_low (b : UInt8) : (b &&& 0x7f).toNat = b.toNat % 128 := by
  rw [← toNat_low, low, UInt8.toNat_toUInt32]

theorem groupSum_eq_value (bytes : List UInt8) : groupSum bytes = value bytes := by
  induction bytes with
  | nil => rfl
  | cons b bytes ih => rw [groupSum_cons, value, toNat_and_low, ih]

theorem toNat_joined (bytes : List UInt8) : (joined bytes).toNat = value bytes := by
  have hlt := value_lt bytes
  rw [joined, BitVec.toNat_ofNat, groupSum_eq_value, Nat.mod_eq_of_lt]
  rwa [Nat.pow_mul]

theorem value_append (front back : List UInt8) :
    value (front ++ back) = value front + 128 ^ front.length * value back := by
  induction front with
  | nil => simp [value]
  | cons b front ih =>
    rw [List.cons_append, value, value, ih, List.length_cons, Nat.pow_succ, Nat.mul_comm _ 128,
      Nat.mul_assoc]
    omega

/-- The highest bit of all groups is bit 6 of the last byte. -/
theorem msb_joined (bytes : List UInt8) :
    (joined bytes).msb = (bytes.getLastD 0 &&& 0x40 != 0) := by
  rcases List.eq_nil_or_concat bytes with rfl | ⟨front, b, rfl⟩
  · rfl
  · have hlt := value_lt front
    have hhalf : 2 ^ (7 * (front.concat b).length - 1) = 64 * 128 ^ front.length := by
      rw [List.length_concat, Nat.mul_succ, Nat.add_sub_assoc (by decide), Nat.pow_add, Nat.pow_mul, Nat.mul_comm]
    have hvalue : value (front.concat b) = value front + 128 ^ front.length * (b.toNat % 128) := by
      rw [List.concat_eq_append, value_append, value, value, Nat.mul_zero, Nat.add_zero]
    have hlast : (front.concat b).getLastD 0 = b := by simp
    rw [Bool.eq_iff_iff, hlast, bne_iff_ne, bit_six_iff, BitVec.msb_eq_decide, decide_eq_true_iff, toNat_joined,
      hhalf, hvalue]
    generalize 128 ^ front.length = p at hlt ⊢
    -- the groups below the last one do not reach its weight `p`
    constructor
    · intro hle
      by_contra hless
      have := Nat.mul_le_mul_left p (show b.toNat % 128 ≤ 63 by omega)
      omega
    · intro hle
      have := Nat.mul_le_mul_left p hle
      omega

theorem toInt_joined {num : List UInt8} (h : Numeral num) : (joined num).toInt = signedValue num := by
  have hsign := and_sign_iff _ h.getLastD_lt
  rw [signedValue_eq h, BitVec.toInt_eq_msb_cond, msb_joined, toNat_joined, Nat.pow_mul]
  simp only [bne_iff_ne, hsign]
  split <;> simp

theorem unsigned_ofNumeral (num rest : List UInt8) :
    (Groups.ofNumeral num rest).unsigned = UInt32.ofNat (groupSum num) := by
  rw [groupSum_eq_value]
  rfl

theorem signed_ofNumeral_eq {num : List UInt8} (h : Numeral num) (rest : List UInt8) :
    (Groups.ofNumeral num rest).signed = Int32.ofInt (joined num).toInt := by
  rw [toInt_joined h, signed_ofNumeral h]

/-! ## Reading -/

theorem isLast_iff (b : UInt8) : isLast b = true ↔ b.toNat < 128 := by
  have h := not_congr (continues_iff b)
  rw [continues, bne_iff_ne, Classical.not_not, Nat.not_le] at h
  rw [isLast, beq_iff_eq, h]

theorem numeral_of_findIdx? {bytes : List UInt8} {last : Nat} (h : bytes.findIdx? isLast = some last) :
    Numeral (bytes.take (last + 1)) := by
  induction bytes generalizing last with
  | nil => cases h
  | cons b bytes ih =>
    rw [List.findIdx?_cons] at h
    split at h
    · next hlast =>
      cases h
      exact .last ((isLast_iff b).1 hlast)
    · next hmore =>
      obtain ⟨last, hfound, rfl⟩ := Option.map_eq_some_iff.1 h
      rw [isLast_iff] at hmore
      exact .cons (by omega) (ih hfound)

/-- The number at the front of a byte string ends with the first byte that can end
one. -/
theorem read_eq (bytes : List UInt8) : read bytes =
    (bytes.findIdx? isLast).map fun last => .ofNumeral (bytes.take (last + 1)) (bytes.drop (last + 1)) := by
  cases hfound : bytes.findIdx? isLast with
  | none =>
    rw [Option.map_none, read_eq_none_iff]
    intro b hb
    have hmore := List.findIdx?_eq_none_iff.1 hfound b hb
    rw [← Bool.not_eq_true, isLast_iff] at hmore
    omega
  | some last =>
    have hread := read_append (numeral_of_findIdx? hfound) (bytes.drop (last + 1))
    rwa [List.take_append_drop] at hread

theorem length_of_findIdx? {bytes : List UInt8} {last : Nat} (h : bytes.findIdx? isLast = some last) :
    (bytes.take (last + 1)).length = last + 1 := by
  obtain ⟨hlt, -⟩ := List.findIdx?_eq_some_iff_getElem.1 h
  rw [List.length_take]
  omega

end Leb128

open Leb128

theorem Read.groups_eq (r : Reader) : Read.groups r =
    match r.bytes.findIdx? isLast with
    | some last =>
      .ok (.ofNumeral (r.bytes.take (last + 1)) (r.bytes.drop (last + 1)))
        { r with bytes := r.bytes.drop (last + 1), pos := r.pos + (last + 1) }
    | none => .error r.exhausted.ending r.exhausted := by
  rw [groups, read_eq]
  cases hfound : r.bytes.findIdx? isLast with
  | none => rfl
  | some last => simp only [Option.map_some, Groups.ofNumeral, length_of_findIdx? hfound]

theorem Exec.operand_eq (t : Thread) : Exec.operand t =
    match t.current.rest.findIdx? isLast with
    | some last =>
      .ok (.ofNumeral (t.current.rest.take (last + 1)) (t.current.rest.drop (last + 1)))
        { t with current := t.current.advance (last + 1) }
    | none => .error .truncatedOperand { t with current := t.current.advance t.current.rest.length } := by
  rw [operand, read_eq]
  cases hfound : t.current.rest.findIdx? isLast with
  | none => rfl
  | some last => simp only [Option.map_some, Groups.ofNumeral, length_of_findIdx? hfound]

namespace Leb128

/-- An unsigned number is read up to the first byte whose high bit is clear, and is the
sum of its groups with their weights, reduced to 32 bits, however many groups there are.
If there is no such byte, all bytes are taken, and what fails is the request for the next
one. Operands of instructions are read in the same way from the rest of the body. -/
theorem unsigned_of_groups (r : Reader) (t : Thread) :
    (Read.unsigned r =
      match r.bytes.findIdx? isLast with
      | some last =>
        .ok (UInt32.ofNat (groupSum (r.bytes.take (last + 1))))
          { r with bytes := r.bytes.drop (last + 1), pos := r.pos + (last + 1) }
      | none => .error r.exhausted.ending r.exhausted) ∧
    Exec.unsignedOperand t =
      match t.current.rest.findIdx? isLast with
      | some last =>
        .ok (UInt32.ofNat (groupSum (t.current.rest.take (last + 1))))
          { t with current := t.current.advance (last + 1) }
      | none => .error .truncatedOperand { t with current := t.current.advance t.current.rest.length } := by
  constructor
  · simp only [Read.unsigned, bind, EStateM.bind, Read.groups_eq]
    cases r.bytes.findIdx? isLast with
    | none => rfl
    | some last => exact congrArg (EStateM.Result.ok · _) (unsigned_ofNumeral ..)
  · simp only [Exec.unsignedOperand, bind, EStateM.bind, Exec.operand_eq]
    cases t.current.rest.findIdx? isLast with
    | none => rfl
    | some last => exact congrArg (EStateM.Result.ok · _) (unsigned_ofNumeral ..)

-- six bytes, of which the last lies beyond the word, and a byte behind them
example : Read.unsigned (.ofBytes [0xff, 0xff, 0xff, 0xff, 0xff, 0x01, 9]) =
    .ok 0xffffffff ⟨⟨[9], none⟩, 6⟩ := rfl

/-- A signed number is read up to the first byte whose high bit is clear, and is what its
groups stand for in two's complement, reduced to 32 bits, however many groups there are.
The sign is bit 6 of the last byte. If there is no byte whose high bit is clear, all bytes
are taken, and what fails is the request for the next one. -/
theorem signed_of_groups (r : Reader) (t : Thread) :
    (Read.signed r =
      match r.bytes.findIdx? isLast with
      | some last =>
        .ok (Int32.ofInt (joined (r.bytes.take (last + 1))).toInt)
          { r with bytes := r.bytes.drop (last + 1), pos := r.pos + (last + 1) }
      | none => .error r.exhausted.ending r.exhausted) ∧
    (Exec.signedOperand t =
      match t.current.rest.findIdx? isLast with
      | some last =>
        .ok (Int32.ofInt (joined (t.current.rest.take (last + 1))).toInt)
          { t with current := t.current.advance (last + 1) }
      | none => .error .truncatedOperand { t with current := t.current.advance t.current.rest.length }) ∧
    ∀ bytes, (joined bytes).msb = (bytes.getLastD 0 &&& 0x40 != 0) := by
  refine ⟨?_, ?_, msb_joined⟩
  · simp only [Read.signed, bind, EStateM.bind, Read.groups_eq]
    cases hfound : r.bytes.findIdx? isLast with
    | none => rfl
    | some last =>
      exact congrArg (EStateM.Result.ok · _) (signed_ofNumeral_eq (numeral_of_findIdx? hfound) _)
  · simp only [Exec.signedOperand, bind, EStateM.bind, Exec.operand_eq]
    cases hfound : t.current.rest.findIdx? isLast with
    | none => rfl
    | some last =>
      exact congrArg (EStateM.Result.ok · _) (signed_ofNumeral_eq (numeral_of_findIdx? hfound) _)

-- a number that is not finished: the offset is that of the byte that is missing
example : Read.signed (.ofBytes [0xff, 0x80]) = .error (.truncated 2) ⟨⟨[], none⟩, 2⟩ := rfl

end Leb128

end StackVm
