import StackVm.Proofs.Binary.Reads
import StackVm.Proofs.Leb128.Signed

/-!
# Shortest LEB128 spellings

What is written for a word is read back from the front of any byte string, and no
shorter byte string is read as that word, though numbers of any length are read and
lose their high bits (`Leb128.written_shortest`).

* `length_ofUInt32_le_of_numeral`, `length_ofInt32_le_of_numeral`: a numeral that is
  read as a word is no shorter than what is written for the word. Up to four groups
  the word is the number itself, and what is written for a number is as long as the
  number requires. From five groups on there is nothing to show, as five groups hold
  every word;
* `rounds`: writing on words, a group a round. A round looks at the word that the
  shift leaves and, of a signed number, at the sign of the group, and tells from that
  whether the group is the last one. Rounds write the shortest spellings
  (`unfolds_ofUInt32`, `unfolds_ofInt32`), so that there are at most five of them.
-/

namespace StackVm.Leb128

/-! ## Lengths -/

/-- `n + 1` groups hold a sign and `7 n + 6` bits. -/
theorem signedValue_bounds {num : List UInt8} (h : Numeral num) {n : Nat} (hn : num.length = n + 1) :
    -((64 * 128 ^ n : Nat) : Int) ≤ signedValue num ∧ signedValue num < (64 * 128 ^ n : Nat) := by
  induction h generalizing n with
  | @last b hb =>
    cases hn
    rw [signedValue, Nat.pow_zero]
    split <;> omega
  | @cons b num hb hnum ih =>
    rw [List.length_cons, Nat.add_right_cancel_iff] at hn
    obtain ⟨n, rfl⟩ : ∃ k, n = k + 1 := ⟨n - 1, by have := hnum.length_pos; omega⟩
    have ih := ih hn
    rw [signedValue_cons hnum, Nat.pow_succ]
    omega

theorem length_ofInt_le_of_bounds {z : Int} {n : Nat} (hlow : -((64 * 128 ^ n : Nat) : Int) ≤ z)
    (hhigh : z < (64 * 128 ^ n : Nat)) : (ofInt z).length ≤ n + 1 := by
  induction n generalizing z with
  | zero =>
    rw [ofInt, if_pos (by omega)]
    simp
  | succ n ih =>
    rw [Nat.pow_succ] at hlow hhigh
    rw [ofInt]
    split
    · simp
    · exact Nat.succ_le_succ (ih (by omega) (by omega))

theorem length_ofInt32_le (v : Int32) : (ofInt32 v).length ≤ 5 := by
  have hlow := v.le_toInt
  have hhigh := v.toInt_lt
  exact length_ofInt_le_of_bounds (by omega) (by omega)

theorem length_ofUInt32_le_of_numeral {num : List UInt8} (h : Numeral num) (rest : List UInt8) :
    (ofUInt32 (Groups.ofNumeral num rest).unsigned).length ≤ num.length :=
  (spells_ofNumeral h rest).length_ofNat_le (Nat.le_refl _)

theorem length_ofInt32_le_of_numeral {num : List UInt8} (h : Numeral num) (rest : List UInt8) :
    (ofInt32 (Groups.ofNumeral num rest).signed).length ≤ num.length := by
  by_cases hsize : num.length < 5
  · -- no bit of the number is lost
    obtain ⟨n, hn⟩ : ∃ n, num.length = n + 1 := ⟨num.length - 1, by have := h.length_pos; omega⟩
    obtain ⟨hlow, hhigh⟩ := signedValue_bounds h hn
    have hpow : 128 ^ n ≤ 128 ^ 3 := Nat.pow_le_pow_right (by decide) (by omega)
    rw [signed_ofNumeral h, ofInt32, Int32.toInt_ofInt_of_le (by omega) (by omega), hn]
    exact length_ofInt_le_of_bounds hlow hhigh
  · exact Nat.le_trans (length_ofInt32_le _) (by omega)

/-! ## Writing in rounds -/

/-- One round of writing an unsigned word: the byte to write, and the word that is left
unless that byte is the last one. -/
def unsignedRound (v : UInt32) : UInt8 × Option UInt32 :=
  let group := (v &&& 0x7f).toUInt8
  let left := v >>> 7
  if left = 0 then (group, none) else (group ||| 0x80, some left)

/-- One round of writing a signed word. The group is the last one if the word that is
left repeats its sign. -/
def signedRound (v : Int32) : UInt8 × Option Int32 :=
  let group := (v &&& 0x7f).toUInt32.toUInt8
  let left := v >>> 7
  if (left = 0 ∧ group &&& 0x40 = 0) ∨ (left = -1 ∧ group &&& 0x40 ≠ 0) then (group, none)
  else (group ||| 0x80, some left)

section

variable {α : Type}

/-- What is written in at most `n` rounds, or nothing if one of them does not write the
last byte. -/
def rounds (round : α → UInt8 × Option α) : Nat → α → Option (List UInt8)
  | 0, _ => none
  | n + 1, v =>
    match round v with
    | (b, none) => some [b]
    | (b, some left) => (rounds round n left).map (b :: ·)

/-- What is written unfolds round by round. -/
def Unfolds (write : α → List UInt8) (round : α → UInt8 × Option α) : Prop :=
  ∀ v, write v = match round v with
    | (b, none) => [b]
    | (b, some left) => b :: write left

/-- There are as many rounds as there are bytes to write. -/
theorem rounds_eq {write : α → List UInt8} {round : α → UInt8 × Option α} (h : Unfolds write round)
    {n : Nat} {v : α} (hn : (write v).length ≤ n) : rounds round n v = some (write v) := by
  induction n generalizing v with
  | zero =>
    rw [h v] at hn
    split at hn <;> simp at hn
  | succ n ih =>
    have hv := h v
    rw [rounds]
    cases hround : round v with
    | mk b left =>
      rw [hround] at hv
      cases left with
      | none => rw [hv]
      | some left =>
        rw [hv, List.length_cons] at hn
        rw [hv]
        show (rounds round n left).map (b :: ·) = _
        rw [ih (Nat.le_of_succ_le_succ hn), Option.map_some]

end

theorem or_continue {b : UInt8} (h : b.toNat < 128) : b ||| 0x80 = UInt8.ofNat (b.toNat + 128) := by
  have hall : ∀ i : Fin 128, UInt8.ofNat i ||| 0x80 = UInt8.ofNat (i.val + 128) := by decide +kernel
  simpa using hall ⟨b.toNat, h⟩

theorem toNat_group (v : UInt32) : (v &&& 0x7f).toUInt8.toNat = v.toNat % 128 := by
  have hand : v.toNat &&& 127 = v.toNat % 128 := Nat.and_two_pow_sub_one_eq_mod v.toNat 7
  rw [UInt32.toNat_toUInt8, UInt32.toNat_and]
  show (v.toNat &&& 127) % 2 ^ 8 = _
  omega

theorem unfolds_ofUInt32 : Unfolds ofUInt32 unsignedRound := by
  intro v
  have hgroup := toNat_group v
  have hleft : (v >>> 7).toNat = v.toNat / 128 := by
    rw [UInt32.toNat_shiftRight]
    exact Nat.shiftRight_eq_div_pow v.toNat 7
  have hlast : v >>> 7 = 0 ↔ v.toNat < 128 := by
    rw [← UInt32.toNat_inj, hleft, UInt32.toNat_zero]
    omega
  simp only [unsignedRound, hlast]
  rw [ofUInt32, ofNat]
  by_cases hless : v.toNat < 128
  · rw [if_pos hless, if_pos hless]
    rw [Nat.mod_eq_of_lt hless] at hgroup
    rw [← hgroup, UInt8.ofNat_toNat]
  · rw [if_neg hless, if_neg hless, or_continue (by omega), hgroup]
    show _ = _ :: ofNat (v >>> 7).toNat
    rw [hleft]

theorem toInt_shiftRight_seven (v : Int32) : (v >>> 7).toInt = v.toInt / 128 := by
  rw [← Int32.toInt_toBitVec, Int32.toBitVec_shiftRight]
  show (v.toBitVec.sshiftRight 7).toInt = _
  rw [BitVec.toInt_sshiftRight, Int.shiftRight_eq_div_pow]
  rfl

theorem toNat_signed_group (v : Int32) : (v &&& 0x7f).toUInt32.toUInt8.toNat = (v.toInt % 128).toNat := by
  have hgroup : (v &&& 0x7f).toUInt32.toUInt8.toNat = v.toBitVec.toNat % 128 := toNat_group v.toUInt32
  have htwos := BitVec.toInt_eq_toNat_cond v.toBitVec
  rw [hgroup, ← Int32.toInt_toBitVec]
  split at htwos <;> omega

/-- A round writes the last byte just if the group holds the whole number. -/
theorem last_signed_round_iff (v : Int32) :
    (v >>> 7 = 0 ∧ (v &&& 0x7f).toUInt32.toUInt8 &&& 0x40 = 0) ∨
      (v >>> 7 = -1 ∧ (v &&& 0x7f).toUInt32.toUInt8 &&& 0x40 ≠ 0) ↔ -64 ≤ v.toInt ∧ v.toInt < 64 := by
  have hgroup := toNat_signed_group v
  have hsign := and_sign_iff (v &&& 0x7f).toUInt32.toUInt8 (by omega)
  have hzero : v >>> 7 = 0 ↔ v.toInt / 128 = 0 := by
    rw [← Int32.toInt_inj, toInt_shiftRight_seven, Int32.toInt_zero]
  have hones : v >>> 7 = -1 ↔ v.toInt / 128 = -1 := by
    rw [← Int32.toInt_inj, toInt_shiftRight_seven]
    rfl
  rw [← Classical.not_not (a := _ &&& _ = (0 : UInt8)), ← ne_eq, hsign, hzero, hones, hgroup]
  omega

theorem unfolds_ofInt32 : Unfolds ofInt32 signedRound := by
  intro v
  have hgroup := toNat_signed_group v
  simp only [signedRound, last_signed_round_iff]
  rw [ofInt32, ofInt]
  by_cases hfits : -64 ≤ v.toInt ∧ v.toInt < 64
  · rw [if_pos hfits, if_pos hfits, ← hgroup, UInt8.ofNat_toNat]
  · rw [if_neg hfits, if_neg hfits, or_continue (by omega), hgroup]
    show _ = _ :: ofInt (v >>> 7).toInt
    rw [toInt_shiftRight_seven]

/-! ## Reading what is written -/

section

variable {α : Type}

/-- What is written for `v` is read back from the front of any byte string and is as short
as can be, and writing it in rounds ends after one to five bytes. -/
structure Shortest (write : α → List UInt8) (round : α → UInt8 × Option α) (read : Read α) (v : α) :
    Prop where
  read_back : ∀ (r : Reader) (rest : List UInt8), read { r with bytes := write v ++ rest } =
    .ok v { r with bytes := rest, pos := r.pos + (write v).length }
  not_shorter : ∀ r r' : Reader, r.bytes.length < (write v).length → read r ≠ .ok v r'
  ends : rounds round 5 v = some (write v)
  length_pos : 1 ≤ (write v).length
  length_le : (write v).length ≤ 5

/-- Spellings are shortest if they are numerals that stand for what they spell, no longer
than any other that does, and unfold round by round. -/
theorem shortest_of_numeral {write : α → List UInt8} {round : α → UInt8 × Option α} {reading : Groups → α}
    (hnum : ∀ v, Numeral (write v))
    (hread : ∀ v rest, reading (.ofNumeral (write v) rest) = v)
    (hleast : ∀ num rest, Numeral num → (write (reading (.ofNumeral num rest))).length ≤ num.length)
    (hround : Unfolds write round) (hfive : ∀ v, (write v).length ≤ 5) (v : α) :
    Shortest write round (return reading (← Read.groups)) v where
  read_back r rest := by
    refine Read.bind_eq_ok_iff.2 ⟨_, _, Read.groups_eq_ok_iff.2 ⟨write v, rest, hnum v, rfl, rfl, rfl⟩, ?_⟩
    rw [hread]
    rfl
  not_shorter r r' hless hv := by
    obtain ⟨g, r₁, hg, hv⟩ := Read.bind_eq_ok_iff.1 hv
    cases hv
    obtain ⟨num, rest, hnum, hbytes, rfl, -⟩ := Read.groups_eq_ok_iff.1 hg
    have hle := hleast num rest hnum
    rw [hbytes, List.length_append] at hless
    omega
  ends := rounds_eq hround (hfive v)
  length_pos := (hnum v).length_pos
  length_le := hfive v

end

/-- What is written for a word, unsigned or signed, is read back whatever follows it, and
nothing of what follows is touched. No shorter byte string is read as the word. Writing
ends, after at least one byte and at most five. -/
theorem written_shortest :
    (∀ v, Shortest ofUInt32 unsignedRound Read.unsigned v) ∧
      ∀ v, Shortest ofInt32 signedRound Read.signed v := by
  constructor
  · exact shortest_of_numeral (fun v => numeral_ofNat v.toNat)
      (fun v rest => (spells_ofUInt32 v).unsigned_eq rest)
      (fun _ rest h => length_ofUInt32_le_of_numeral h rest) unfolds_ofUInt32 length_ofUInt32_le
  · exact shortest_of_numeral (fun v => numeral_ofInt v.toInt) signed_ofInt32
      (fun _ rest h => length_ofInt32_le_of_numeral h rest) unfolds_ofInt32 length_ofInt32_le

/-- Three bytes are written for 624485 and for its negative, and no two bytes are read as
either. -/
theorem written_shortest_three :
    (ofUInt32 624485 = [0xe5, 0x8e, 0x26] ∧ ∀ b c r, Read.unsigned (.ofBytes [b, c]) ≠ .ok 624485 r) ∧
      ofInt32 (-624485) = [0x9b, 0xf1, 0x59] ∧ ∀ b c r, Read.signed (.ofBytes [b, c]) ≠ .ok (-624485) r := by
  have hunsigned : ofUInt32 624485 = [0xe5, 0x8e, 0x26] := by decide +kernel
  have hsigned : ofInt32 (-624485) = [0x9b, 0xf1, 0x59] := by decide +kernel
  refine ⟨⟨hunsigned, fun b c r => ?_⟩, hsigned, fun b c r => ?_⟩
  · refine (written_shortest.1 624485).not_shorter _ r ?_
    rw [hunsigned]
    exact Nat.lt_succ_self 2
  · refine (written_shortest.2 (-624485)).not_shorter _ r ?_
    rw [hsigned]
    exact Nat.lt_succ_self 2

end StackVm.Leb128
