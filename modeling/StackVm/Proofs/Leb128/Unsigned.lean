import Mathlib.Algebra.Group.Nat.Defs
import StackVm.Leb128

/-!
# Unsigned LEB128

Which byte strings are LEB128 numbers, and what they stand for, said without
a reader: every byte but the last has its high bit set (`Numeral`), and the
number is the sum of the seven low bits of the bytes, least significant group
first (`value`). A byte string spells a 32-bit word if the low 32 bits of its
number are that word (`Spells`), so a word has spellings of any length.

* `read_eq_some_iff`: `read` takes just the numeral at the front of a byte
  string;
* `spells_ofUInt32`: what is written for a word spells it;
* `Spells.length_ofNat_le`: no spelling of a word is shorter.
-/

namespace StackVm.Leb128

/-- The number that groups stand for, whatever their count. -/
def value : List UInt8 → Nat
  | [] => 0
  | b :: rest => b.toNat % 128 + 128 * value rest

/-- The byte strings that are one number: every byte but the last has its high
bit set. -/
inductive Numeral : List UInt8 → Prop
  | last {b : UInt8} : b.toNat < 128 → Numeral [b]
  | cons {b : UInt8} {rest : List UInt8} : 128 ≤ b.toNat → Numeral rest → Numeral (b :: rest)

/-- The byte strings that spell a word: the low 32 bits of their number are the
word, and bits above them do not count. -/
def Spells (bytes : List UInt8) (v : UInt32) : Prop :=
  Numeral bytes ∧ value bytes % 2 ^ 32 = v.toNat

/-- What reading the numeral `num` in front of `rest` gathers. -/
def Groups.ofNumeral (num rest : List UInt8) : Groups where
  word := UInt32.ofNat (value num)
  last := num.getLastD 0
  size := num.length
  rest := rest

theorem Numeral.length_pos {num : List UInt8} (h : Numeral num) : 0 < num.length := by
  cases h <;> simp

/-- `k` groups hold `7 k` bits. -/
theorem value_lt (bytes : List UInt8) : value bytes < 128 ^ bytes.length := by
  induction bytes with
  | nil => simp [value]
  | cons b rest ih =>
    rw [value, List.length_cons, Nat.pow_succ]
    omega

/-! ## Reading -/

theorem continues_iff (b : UInt8) : continues b = true ↔ 128 ≤ b.toNat := by
  have h : ∀ i : Fin 256, continues (UInt8.ofNat i) = true ↔ 128 ≤ i.val := by decide +kernel
  simpa using h ⟨b.toNat, b.toNat_lt⟩

theorem toNat_low (b : UInt8) : (low b).toNat = b.toNat % 128 := by
  rw [low, UInt8.toNat_toUInt32, UInt8.toNat_and]
  exact Nat.and_two_pow_sub_one_eq_mod b.toNat 7

theorem toNat_shifted (bits : UInt32) (shift : Nat) :
    (shifted bits shift).toNat = 2 ^ shift * bits.toNat % 2 ^ 32 := by
  rw [shifted]
  split
  · next h =>
    rw [UInt32.toNat_shiftLeft, UInt32.toNat_ofNat', Nat.mod_eq_of_lt (a := shift) (by omega),
      Nat.mod_eq_of_lt h, Nat.shiftLeft_eq, Nat.mul_comm]
  · next h =>
    obtain ⟨k, rfl⟩ : ∃ k, shift = 32 + k := ⟨shift - 32, by omega⟩
    rw [Nat.pow_add, Nat.mul_assoc, Nat.mul_mod_right]
    rfl

/-- A word that holds the groups below bit `shift`, joined with a group that
starts there: nothing overlaps, so joining is adding. -/
theorem toNat_or_shifted {word : UInt32} {shift : Nat} (h : word.toNat < 2 ^ shift) (bits : UInt32) :
    (word ||| shifted bits shift).toNat = (word.toNat + 2 ^ shift * bits.toNat) % 2 ^ 32 := by
  rw [UInt32.toNat_or, toNat_shifted]
  by_cases hs : shift < 32
  · have hsplit : 2 ^ 32 = 2 ^ shift * 2 ^ (32 - shift) := by rw [← Nat.pow_add]; congr 1; omega
    have hmod : 2 ^ shift * bits.toNat % 2 ^ 32 = 2 ^ shift * (bits.toNat % 2 ^ (32 - shift)) := by
      rw [hsplit, Nat.mul_mod_mul_left]
    have hlt : bits.toNat % 2 ^ (32 - shift) < 2 ^ (32 - shift) := Nat.mod_lt _ (Nat.two_pow_pos _)
    have hle := Nat.mul_le_mul_left (2 ^ shift) (Nat.succ_le_of_lt hlt)
    rw [Nat.mul_succ, ← hsplit] at hle
    rw [Nat.add_mod, Nat.mod_eq_of_lt word.toNat_lt, hmod]
    generalize bits.toNat % 2 ^ (32 - shift) = kept at hle ⊢
    rw [Nat.or_comm, ← Nat.two_pow_add_eq_or_of_lt h, Nat.mod_eq_of_lt (by omega), Nat.add_comm]
  · obtain ⟨k, rfl⟩ : ∃ k, shift = 32 + k := ⟨shift - 32, by omega⟩
    rw [Nat.pow_add, Nat.mul_assoc, Nat.mul_mod_right, Nat.add_mul_mod_self_left,
      Nat.mod_eq_of_lt word.toNat_lt, Nat.or_zero]

/-- Reading a numeral behind `size` groups that `word` holds. The groups read so
far stay below bit `7 * size`, where the next one starts. -/
theorem readFrom_append {num : List UInt8} (h : Numeral num) (rest : List UInt8) {word : UInt32}
    {size : Nat} (hw : word.toNat < 2 ^ (7 * size)) :
    readFrom word size (num ++ rest) = some
      { word := UInt32.ofNat (word.toNat + 2 ^ (7 * size) * value num)
        last := num.getLastD 0
        size := size + num.length
        rest } := by
  induction h generalizing word size with
  | @last b hb =>
    have hc : ¬ continues b = true := by rw [continues_iff]; omega
    have hword : word ||| shifted (low b) (7 * size) =
        UInt32.ofNat (word.toNat + 2 ^ (7 * size) * value [b]) := by
      apply UInt32.toNat_inj.1
      rw [toNat_or_shifted hw, toNat_low, UInt32.toNat_ofNat', value, value, Nat.mul_zero, Nat.add_zero]
    rw [List.singleton_append, readFrom, if_neg hc, hword]
    rfl
  | @cons b num hb hnum ih =>
    have hc : continues b = true := (continues_iff b).2 hb
    have hpow : 2 ^ (7 * (size + 1)) = 2 ^ (7 * size) * 128 := by rw [Nat.mul_succ, Nat.pow_add]
    have hstep := toNat_or_shifted hw (low b)
    rw [toNat_low] at hstep
    have hlt : (word ||| shifted (low b) (7 * size)).toNat < 2 ^ (7 * (size + 1)) := by
      have hle := Nat.mul_le_mul_left (2 ^ (7 * size)) (show b.toNat % 128 ≤ 127 by omega)
      have := Nat.mod_le (word.toNat + 2 ^ (7 * size) * (b.toNat % 128)) (2 ^ 32)
      omega
    have hword : UInt32.ofNat ((word ||| shifted (low b) (7 * size)).toNat +
          2 ^ (7 * (size + 1)) * value num) =
        UInt32.ofNat (word.toNat + 2 ^ (7 * size) * value (b :: num)) := by
      apply UInt32.toNat_inj.1
      rw [UInt32.toNat_ofNat', UInt32.toNat_ofNat', hstep, Nat.mod_add_mod, value, hpow, Nat.mul_add,
        Nat.mul_assoc, Nat.add_assoc]
    have hlast : num.getLastD 0 = (b :: num).getLastD 0 := by
      obtain ⟨c, num, rfl⟩ := List.exists_cons_of_length_pos hnum.length_pos
      rfl
    rw [List.cons_append, readFrom, if_pos hc, ih hlt, hword, hlast, List.length_cons,
      Nat.add_assoc, Nat.add_comm 1]

/-- A byte string that is read starts with a numeral. -/
theorem exists_numeral_of_readFrom {bytes : List UInt8} {word : UInt32} {size : Nat} {g : Groups}
    (h : readFrom word size bytes = some g) : ∃ num, Numeral num ∧ bytes = num ++ g.rest := by
  induction bytes generalizing word size with
  | nil => cases h
  | cons b bytes ih =>
    rw [readFrom] at h
    split at h
    · next hc =>
      obtain ⟨num, hnum, hbytes⟩ := ih h
      exact ⟨b :: num, .cons ((continues_iff b).1 hc) hnum, by rw [hbytes, List.cons_append]⟩
    · next hc =>
      cases h
      rw [continues_iff] at hc
      exact ⟨[b], .last (by omega), rfl⟩

theorem read_append {num : List UInt8} (h : Numeral num) (rest : List UInt8) :
    read (num ++ rest) = some (.ofNumeral num rest) := by
  rw [read, readFrom_append h rest (by decide)]
  simp [Groups.ofNumeral]

/-- Reading takes just the numeral at the front. -/
theorem read_eq_some_iff {bytes : List UInt8} {g : Groups} :
    read bytes = some g ↔ ∃ num rest, Numeral num ∧ bytes = num ++ rest ∧ g = .ofNumeral num rest := by
  constructor
  · intro h
    obtain ⟨num, hnum, rfl⟩ := exists_numeral_of_readFrom h
    rw [read_append hnum] at h
    exact ⟨num, g.rest, hnum, rfl, (Option.some.inj h).symm⟩
  · rintro ⟨num, rest, hnum, rfl, rfl⟩
    exact read_append hnum rest

/-- A number that is not finished is one byte after another that another has
to follow. -/
theorem read_eq_none_iff {bytes : List UInt8} : read bytes = none ↔ ∀ b ∈ bytes, 128 ≤ b.toNat := by
  have hfrom : ∀ word size, readFrom word size bytes = none ↔ ∀ b ∈ bytes, 128 ≤ b.toNat := by
    induction bytes with
    | nil => simp [readFrom]
    | cons b bytes ih =>
      intro word size
      rw [readFrom, List.forall_mem_cons, ← continues_iff]
      split
      · next hc => simp [ih, hc]
      · next hc => simp [hc]
  exact hfrom 0 0

theorem spells_ofNumeral {num : List UInt8} (h : Numeral num) (rest : List UInt8) :
    Spells num (Groups.ofNumeral num rest).unsigned :=
  ⟨h, (UInt32.toNat_ofNat' ..).symm⟩

theorem Spells.unsigned_eq {num : List UInt8} {v : UInt32} (h : Spells num v) (rest : List UInt8) :
    (Groups.ofNumeral num rest).unsigned = v := by
  apply UInt32.toNat_inj.1
  rw [← h.2]
  exact UInt32.toNat_ofNat' ..

/-! ## Shortest spellings -/

theorem numeral_ofNat (n : Nat) : Numeral (ofNat n) := by
  induction n using ofNat.induct with
  | case1 n h =>
    rw [ofNat, if_pos h]
    exact .last (by rw [UInt8.toNat_ofNat']; omega)
  | case2 n h ih =>
    rw [ofNat, if_neg h]
    exact .cons (by rw [UInt8.toNat_ofNat']; omega) ih

theorem value_ofNat (n : Nat) : value (ofNat n) = n := by
  induction n using ofNat.induct with
  | case1 n h =>
    rw [ofNat, if_pos h, value, value, UInt8.toNat_ofNat']
    omega
  | case2 n h ih =>
    rw [ofNat, if_neg h, value, ih, UInt8.toNat_ofNat']
    omega

/-- `ofUInt32` writes a spelling. -/
theorem spells_ofUInt32 (v : UInt32) : Spells (ofUInt32 v) v :=
  ⟨numeral_ofNat _, by rw [ofUInt32, value_ofNat, Nat.mod_eq_of_lt v.toNat_lt]⟩

theorem length_ofNat_le_of_lt {n k : Nat} (hk : 0 < k) (h : n < 128 ^ k) : (ofNat n).length ≤ k := by
  induction k generalizing n with
  | zero => omega
  | succ k ih =>
    rw [ofNat]
    split
    · simp
    · next hn =>
      rw [Nat.pow_succ] at h
      have hk : 0 < k := by
        rcases Nat.eq_zero_or_pos k with rfl | hk
        · omega
        · exact hk
      exact Nat.succ_le_succ (ih hk (Nat.div_lt_of_lt_mul (by omega)))

/-- Five groups hold every word. -/
theorem length_ofUInt32_le (v : UInt32) : (ofUInt32 v).length ≤ 5 :=
  length_ofNat_le_of_lt (by decide) (Nat.lt_of_lt_of_le v.toNat_lt (by decide))

theorem lt_pow_length_ofNat (n : Nat) : n < 128 ^ (ofNat n).length := by
  have h := value_lt (ofNat n)
  rwa [value_ofNat] at h

theorem length_ofNat_mono {m n : Nat} (h : m ≤ n) : (ofNat m).length ≤ (ofNat n).length :=
  length_ofNat_le_of_lt (numeral_ofNat n).length_pos (Nat.lt_of_le_of_lt h (lt_pow_length_ofNat n))

/-- No spelling of a word is shorter than the one that is written for it or
for a lesser number. -/
theorem Spells.length_ofNat_le {bytes : List UInt8} {v : UInt32} {n : Nat} (h : Spells bytes v)
    (hn : n ≤ v.toNat) : (ofNat n).length ≤ bytes.length := by
  refine length_ofNat_le_of_lt h.1.length_pos ?_
  have := Nat.mod_le (value bytes) (2 ^ 32)
  have := value_lt bytes
  have := h.2
  omega

/-- The spelling of a sum is no longer than those of its parts. -/
theorem length_ofNat_add_le (m n : Nat) :
    (ofNat (m + n)).length ≤ (ofNat m).length + (ofNat n).length := by
  have hpow : ∀ k, 2 ≤ 128 ^ (ofNat k).length := fun k =>
    Nat.le_trans (by decide) (Nat.pow_le_pow_right (by decide) (numeral_ofNat k).length_pos)
  have hpos := (numeral_ofNat m).length_pos
  refine length_ofNat_le_of_lt (by omega) ?_
  rw [Nat.pow_add]
  exact Nat.lt_of_lt_of_le (Nat.add_lt_add (lt_pow_length_ofNat m) (lt_pow_length_ofNat n))
    (Nat.add_le_mul (hpow m) (hpow n))

end StackVm.Leb128
