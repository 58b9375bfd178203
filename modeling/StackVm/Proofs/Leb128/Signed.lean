import StackVm.Proofs.Leb128.Unsigned

/-!
# Signed LEB128 integers

The number that groups stand for in two's complement (`signedValue`), and how
it meets reading and writing:

* `signed_ofNumeral`: a numeral of any length is read as the word that its
  signed number comes to;
* `signedValue_ofInt`: what is written for a number stands for it, so that a
  word is read back as it was written (`read_ofInt32`).
-/

namespace StackVm.Leb128

/-- The number that groups stand for, whatever their count, if bit 6 of the
last one is the sign. -/
def signedValue : List UInt8 → Int
  | [] => 0
  | [b] => if b.toNat % 128 < 64 then b.toNat % 128 else b.toNat % 128 - 128
  | b :: c :: rest => b.toNat % 128 + 128 * signedValue (c :: rest)

theorem signedValue_cons {num : List UInt8} (h : Numeral num) (b : UInt8) :
    signedValue (b :: num) = b.toNat % 128 + 128 * signedValue num := by
  obtain ⟨c, num, rfl⟩ := List.exists_cons_of_length_pos h.length_pos
  rw [signedValue]

/-- The two readings differ by the weight of the bit above all groups, if the
sign is set. -/
theorem signedValue_eq {num : List UInt8} (h : Numeral num) :
    signedValue num =
      value num - (if 64 ≤ (num.getLastD 0).toNat then 128 ^ num.length else 0 : Nat) := by
  induction h with
  | @last b hb =>
    rw [signedValue, value, value, Nat.mod_eq_of_lt hb]
    show _ = _ - ((if 64 ≤ b.toNat then 128 else 0 : Nat) : Int)
    split <;> split <;> omega
  | @cons b num hb hnum ih =>
    have hlast : (b :: num).getLastD 0 = num.getLastD 0 := by
      obtain ⟨c, num, rfl⟩ := List.exists_cons_of_length_pos hnum.length_pos
      rfl
    rw [signedValue_cons hnum, ih, value, hlast, List.length_cons, Nat.pow_succ]
    split <;> omega

/-! ## Reading -/

theorem toInt32_eq_ofInt {v : UInt32} {z : Int} (h : (v.toNat : Int) % (2 ^ 32 : Nat) = z % (2 ^ 32 : Nat)) :
    v.toInt32 = Int32.ofInt z := by
  apply Int32.toInt_inj.1
  rw [Int32.toInt_ofInt, ← Int32.toInt_toBitVec, UInt32.toBitVec_toInt32, BitVec.toInt_eq_toNat_bmod]
  show (v.toNat : Int).bmod (2 ^ 32) = z.bmod (2 ^ 32)
  rw [← Int.emod_bmod, h, Int.emod_bmod]

theorem bit_six_iff (b : UInt8) : b &&& 0x40 ≠ 0 ↔ 64 ≤ b.toNat % 128 := by
  have hall : ∀ i : Fin 256, UInt8.ofNat i &&& 0x40 ≠ 0 ↔ 64 ≤ i.val % 128 := by decide +kernel
  simpa using hall ⟨b.toNat, b.toNat_lt⟩

theorem and_sign_iff (b : UInt8) (h : b.toNat < 128) : b &&& 0x40 ≠ 0 ↔ 64 ≤ b.toNat := by
  rw [bit_six_iff, Nat.mod_eq_of_lt h]

theorem Numeral.getLastD_lt {num : List UInt8} (h : Numeral num) : (num.getLastD 0).toNat < 128 := by
  induction h with
  | last hb => exact hb
  | cons _ hnum ih =>
    obtain ⟨c, num, rfl⟩ := List.exists_cons_of_length_pos hnum.length_pos
    exact ih

/-- A numeral, however long, is read as the word that its signed number comes
to. -/
theorem signed_ofNumeral {num : List UInt8} (h : Numeral num) (rest : List UInt8) :
    (Groups.ofNumeral num rest).signed = Int32.ofInt (signedValue num) := by
  have hlt := value_lt num
  have hpow : 128 ^ num.length = 2 ^ (7 * num.length) := by rw [Nat.pow_mul]
  have hword : (UInt32.ofNat (value num)).toNat = value num % 2 ^ 32 := UInt32.toNat_ofNat'
  rw [signedValue_eq h]
  simp only [Groups.signed, Groups.ofNumeral, and_sign_iff _ h.getLastD_lt]
  by_cases hsign : 64 ≤ (num.getLastD 0).toNat
  · rw [if_pos hsign]
    by_cases hsize : 7 * num.length < 32
    · rw [if_pos ⟨hsize, hsign⟩]
      -- all bits above the groups are set, which takes away the weight of the lowest of them
      have hle : 2 ^ (7 * num.length) ≤ 2 ^ 32 := Nat.pow_le_pow_right (by decide) (by omega)
      have hones : (0xffffffff : UInt32).toNat = 2 ^ 32 - 1 := rfl
      rw [hpow] at hlt ⊢
      rw [Nat.mod_eq_of_lt (by omega)] at hword
      refine toInt32_eq_ofInt ?_
      rw [toNat_or_shifted (by rw [hword]; exact hlt), hword, hones]
      generalize 2 ^ (7 * num.length) = p at *
      omega
    · rw [if_neg fun hboth => hsize hboth.1]
      -- the weight is beyond the word
      obtain ⟨k, hk⟩ : ∃ k, 7 * num.length = 32 + k := ⟨7 * num.length - 32, by omega⟩
      refine toInt32_eq_ofInt ?_
      rw [hword, hpow, hk, Nat.pow_add]
      generalize 2 ^ k = p
      omega
  · rw [if_neg hsign, if_neg fun hboth => hsign hboth.2]
    refine toInt32_eq_ofInt ?_
    rw [hword]
    omega

/-! ## Shortest spellings -/

theorem numeral_ofInt (z : Int) : Numeral (ofInt z) := by
  induction z using ofInt.induct with
  | case1 z h =>
    rw [ofInt, if_pos h]
    exact .last (by rw [UInt8.toNat_ofNat']; omega)
  | case2 z h ih =>
    rw [ofInt, if_neg h]
    exact .cons (by rw [UInt8.toNat_ofNat']; omega) ih

theorem signedValue_ofInt (z : Int) : signedValue (ofInt z) = z := by
  induction z using ofInt.induct with
  | case1 z h =>
    rw [ofInt, if_pos h, signedValue, UInt8.toNat_ofNat']
    split <;> omega
  | case2 z h ih =>
    rw [ofInt, if_neg h, signedValue_cons (numeral_ofInt _), ih, UInt8.toNat_ofNat']
    omega

theorem signed_ofInt32 (v : Int32) (rest : List UInt8) : (Groups.ofNumeral (ofInt32 v) rest).signed = v := by
  rw [ofInt32, signed_ofNumeral (numeral_ofInt _), signedValue_ofInt, Int32.ofInt_toInt]

/-- A word that is written is read back, and nothing behind it is touched. -/
theorem read_ofInt32 (v : Int32) (rest : List UInt8) :
    ∃ g, read (ofInt32 v ++ rest) = some g ∧ g.signed = v ∧ g.size = (ofInt32 v).length ∧ g.rest = rest :=
  ⟨_, read_append (numeral_ofInt v.toInt) rest, signed_ofInt32 v rest, rfl, rfl⟩

end StackVm.Leb128
