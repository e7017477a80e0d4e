import Qpack.Proofs.Wire.Integer
import Mathlib.Data.Nat.Bitwise

/-!
# 64 bits are enough to read an integer

The sum of a reader is at most 62 bits wide, and a group that is moved up by 56 bits is 63 bits wide. So no
shift loses a bit, and no sum wraps.

* `toNat_moved`, `moved_back`, `toNat_sum` : a group in its place, and the sum with it;
* `readGroups_eq`, `read_eq` : words do what numbers do, and never stop for their own sake.
-/

namespace Qpack.Integer.Word

/-- What a reader with numbers says, said with words. -/
def ofRead (r : Except Fault (Nat × Octets)) : Except Stop (UInt64 × Octets) :=
  (r.map fun (v, rest) => (UInt64.ofNat v, rest)).mapError .fault

theorem ofRead_ok (sum : UInt64) (rest : Octets) : ofRead (.ok (sum.toNat, rest)) = .ok (sum, rest) := by
  simp [ofRead, Except.map, Except.mapError]

theorem ofRead_ne_shift (r : Except Fault (Nat × Octets)) : ofRead r ≠ .error .shift := by
  cases r <;> simp [ofRead, Except.map, Except.mapError]

theorem ofRead_ne_sum (r : Except Fault (Nat × Octets)) : ofRead r ≠ .error .sum := by
  cases r <;> simp [ofRead, Except.map, Except.mapError]

variable {place : Nat}

/-! ## Groups -/

theorem toNat_group (b : UInt8) : (b &&& 0x7F).toUInt64.toNat = b.toNat % 128 := by
  have hmask : (0x7F : UInt8).toNat = 2 ^ 7 - 1 := rfl
  rw [UInt8.toNat_toUInt64, UInt8.toNat_and, hmask, Nat.and_two_pow_sub_one_eq_mod]

/-- The high bit of an octet is clear in the last group only. -/
theorem and_high_eq_zero_iff (b : UInt8) : b &&& 0x80 = 0 ↔ b.toNat < 128 := by
  have hb := b.toNat_lt
  have hand : (b &&& 0x80).toNat = 2 ^ 7 * (b.toNat.testBit 7).toNat := by
    rw [UInt8.toNat_and, Nat.and_comm]
    exact Nat.two_pow_and b.toNat 7
  rw [← UInt8.toNat_inj, hand, Nat.testBit_eq_decide_div_mod_eq]
  by_cases h : b.toNat < 128
  · simp [h, Nat.div_eq_of_lt h]
  · have hdiv : b.toNat / 128 = 1 := by omega
    simp [h, hdiv]

theorem group_lt (b : UInt8) (hplace : place ≤ 8) : (b.toNat % 128) <<< (7 * place) < 2 ^ 63 := by
  have hgroup := Nat.mod_lt b.toNat (show 0 < 128 by decide)
  have hpow : 2 ^ (7 * place) ≤ 2 ^ 56 := Nat.pow_le_pow_right (by decide) (by omega)
  rw [Nat.shiftLeft_eq]
  calc b.toNat % 128 * 2 ^ (7 * place) < 128 * 2 ^ (7 * place) :=
        Nat.mul_lt_mul_of_pos_right hgroup (Nat.two_pow_pos _)
    _ ≤ 2 ^ 7 * 2 ^ 56 := Nat.mul_le_mul_left 128 hpow

theorem toNat_places (hplace : place ≤ 8) : (UInt64.ofNat (7 * place)).toNat = 7 * place :=
  UInt64.toNat_ofNat_of_lt' (show 7 * place < 2 ^ 64 by omega)

/-- A group that is moved to its place keeps all bits. -/
theorem toNat_moved (b : UInt8) (hplace : place ≤ 8) :
    ((b &&& 0x7F).toUInt64 <<< UInt64.ofNat (7 * place)).toNat = (b.toNat % 128) <<< (7 * place) := by
  have hlt := group_lt b hplace
  rw [UInt64.toNat_shiftLeft, toNat_group, toNat_places hplace, Nat.mod_eq_of_lt (show 7 * place < 64 by omega),
    Nat.mod_eq_of_lt (by omega)]

/-- So it comes back. -/
theorem moved_back (b : UInt8) (hplace : place ≤ 8) :
    (b &&& 0x7F).toUInt64 <<< UInt64.ofNat (7 * place) >>> UInt64.ofNat (7 * place) = (b &&& 0x7F).toUInt64 := by
  rw [← UInt64.toNat_inj, UInt64.toNat_shiftRight, toNat_moved b hplace, toNat_places hplace,
    Nat.mod_eq_of_lt (show 7 * place < 64 by omega), Nat.shiftLeft_shiftRight, toNat_group]

/-- The sum with a group does not wrap. -/
theorem toNat_sum {sum : UInt64} (hsum : sum.toNat ≤ maximum) (b : UInt8) (hplace : place ≤ 8) :
    (sum + (b &&& 0x7F).toUInt64 <<< UInt64.ofNat (7 * place)).toNat =
      sum.toNat + (b.toNat % 128) <<< (7 * place) := by
  have hlt := group_lt b hplace
  rw [maximum, Nat.one_shiftLeft] at hsum
  rw [UInt64.toNat_add, toNat_moved b hplace, Nat.mod_eq_of_lt (by omega)]

/-! ## Reading -/

theorem readGroups_eq {sum : UInt64} (hsum : sum.toNat ≤ maximum) (place : Nat) (data : Octets) :
    readGroups sum (7 * place) data = ofRead (Integer.readGroups sum.toNat place data) := by
  induction data generalizing sum place with
  | nil => rfl
  | cons b rest ih =>
    unfold readGroups Integer.readGroups
    dsimp only
    by_cases hplace : 8 < place
    · rw [if_pos hplace, if_pos (by omega)]
      rfl
    · have hle : place ≤ 8 := Nat.not_lt.1 hplace
      have hnext := toNat_sum hsum b hle
      -- neither guard of the words applies
      have hnowrap : ¬ sum + (b &&& 0x7F).toUInt64 <<< UInt64.ofNat (7 * place) < sum := by
        rw [UInt64.lt_iff_toNat_lt, hnext]
        exact Nat.not_lt.2 (Nat.le_add_right _ _)
      have hmax : UInt64.ofNat maximum < sum + (b &&& 0x7F).toUInt64 <<< UInt64.ofNat (7 * place) ↔
          maximum < sum.toNat + (b.toNat % 128) <<< (7 * place) := by
        rw [UInt64.lt_iff_toNat_lt, hnext, UInt64.toNat_ofNat_of_lt' (by decide)]
      simp only [if_neg hplace, if_neg (show ¬ 56 < 7 * place by omega), ne_eq, moved_back b hle,
        not_true_eq_false, if_false, if_neg hnowrap, hmax, and_high_eq_zero_iff]
      by_cases hlarge : maximum < sum.toNat + (b.toNat % 128) <<< (7 * place)
      · rw [if_pos hlarge, if_pos hlarge]
        rfl
      · rw [if_neg hlarge, if_neg hlarge, ← hnext]
        by_cases hlast : b.toNat < 128
        · rw [if_pos hlast, if_pos hlast, ofRead_ok]
        · rw [if_neg hlast, if_neg hlast]
          exact ih (by rw [hnext]; exact Nat.not_lt.1 hlarge) (place + 1)

theorem toNat_ones {width : Nat} (hw : width ≤ 8) : (ones width).toNat = Integer.ones width := by
  revert width
  decide

/-- The reader with words gives the value and the octets of the reader with numbers, or the same fault: it
never stops because a shift has lost bits or a sum has wrapped. -/
theorem read_eq (width : Nat) (data : Octets) : read width data = ofRead (Integer.read width data) := by
  unfold read Integer.read
  by_cases hw : width = 0 ∨ 8 < width
  · rw [if_pos hw, if_pos hw]
    rfl
  · rw [if_neg hw, if_neg hw]
    cases data with
    | nil => rfl
    | cons b rest =>
      have hones := toNat_ones (show width ≤ 8 by omega)
      have hlow : (b.toUInt64 &&& ones width).toNat = b.toNat % 1 <<< width := by
        rw [UInt64.toNat_and, hones, UInt8.toNat_toUInt64, Integer.ones, Nat.one_shiftLeft,
          Nat.and_two_pow_sub_one_eq_mod]
      have hshort : b.toUInt64 &&& ones width < ones width ↔ b.toNat % 1 <<< width < Integer.ones width := by
        rw [UInt64.lt_iff_toNat_lt, hlow, hones]
      dsimp only
      simp only [hshort, ← hlow]
      by_cases hfits : (b.toUInt64 &&& ones width).toNat < Integer.ones width
      · rw [if_pos hfits, if_pos hfits, ofRead_ok]
      · rw [if_neg hfits, if_neg hfits]
        refine readGroups_eq ?_ 0 rest
        have hb : b.toNat ≤ maximum := b.toNat_lt.le.trans (by decide)
        rw [hlow]
        exact (Nat.mod_le _ _).trans hb

end Qpack.Integer.Word
