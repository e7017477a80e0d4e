import Qpack.Wire.Integer
import Mathlib.Algebra.Group.Nat.Defs
import Mathlib.Order.Nat

/-!
# Prefixed integers that were written or go on

* `toNat_or_ofNat`, `testBit_or_ofNat` : a number below the flags of an octet;
* `head?_write` : the first octet has the flags, and something below them;
* `length_groups_le`, `length_write_mono` : how many octets a value takes;
* `read_write`, `decode_write`, `readAny?_write` : what was written is read again, whatever follows it;
* `read_append`, `read_part` : what is read, and the fault as well, depends on the octets of the integer only.
-/

namespace Qpack.Integer
variable {width : Nat} {flags : UInt8} {x : Nat}

/-! ## The first octet -/

theorem toNat_or (hx : x < 2 ^ width) (hw : width ≤ 8) :
    (flags ||| UInt8.ofNat x).toNat = flags.toNat ||| x := by
  have hle : 2 ^ width ≤ 2 ^ 8 := Nat.pow_le_pow_right (by decide) hw
  rw [UInt8.toNat_or, UInt8.toNat_ofNat', Nat.mod_eq_of_lt (by omega)]

/-- Below flags whose low bits are clear, a number is added. -/
theorem toNat_or_ofNat (hflags : flags.toNat % 2 ^ width = 0) (hx : x < 2 ^ width) (hw : width ≤ 8) :
    (flags ||| UInt8.ofNat x).toNat = flags.toNat + x := by
  have hdiv := Nat.div_add_mod flags.toNat (2 ^ width)
  rw [hflags, Nat.add_zero] at hdiv
  rw [toNat_or hx hw, ← hdiv, ← Nat.two_pow_add_eq_or_of_lt hx]

theorem mod_or_ofNat (hflags : flags.toNat % 2 ^ width = 0) (hx : x < 2 ^ width) (hw : width ≤ 8) :
    (flags ||| UInt8.ofNat x).toNat % 2 ^ width = x := by
  rw [toNat_or_ofNat hflags hx hw, Nat.add_mod, hflags, Nat.zero_add, Nat.mod_mod, Nat.mod_eq_of_lt hx]

theorem testBit_or_ofNat (hx : x < 2 ^ width) (hw : width ≤ 8) {i : Nat} (hi : width ≤ i) :
    (flags ||| UInt8.ofNat x).toNat.testBit i = flags.toNat.testBit i := by
  have hlt : x < 2 ^ i := Nat.lt_of_lt_of_le hx (Nat.pow_le_pow_right (by decide) hi)
  rw [toNat_or hx hw, Nat.testBit_or, Nat.testBit_lt_two_pow hlt, Bool.or_false]

theorem ones_lt (width : Nat) : ones width < 2 ^ width := by
  have hpos := Nat.two_pow_pos width
  rw [ones, Nat.one_shiftLeft]
  omega

theorem write_head (width : Nat) (flags : UInt8) (v : Nat) :
    ∃ x tail, x < 2 ^ width ∧ write width flags v = (flags ||| UInt8.ofNat x) :: tail := by
  have hones := ones_lt width
  rw [write]
  split
  · next hv => exact ⟨v, [], Nat.lt_trans hv hones, rfl⟩
  · exact ⟨ones width, _, hones, rfl⟩

theorem head?_write (hw : width ≤ 8) (hflags : flags.toNat % 2 ^ width = 0) (v : Nat) (rest : Octets) :
    ∃ b, (write width flags v ++ rest).head? = some b ∧ flags.toNat ≤ b.toNat ∧
      b.toNat < flags.toNat + 2 ^ width ∧ ∀ i, width ≤ i → b.toNat.testBit i = flags.toNat.testBit i := by
  obtain ⟨x, tail, hx, he⟩ := write_head width flags v
  refine ⟨flags ||| UInt8.ofNat x, ?_, ?_, ?_, fun i hi => testBit_or_ofNat hx hw hi⟩
  · rw [he]
    rfl
  · rw [toNat_or_ofNat hflags hx hw]
    exact Nat.le_add_right _ _
  · rw [toNat_or_ofNat hflags hx hw]
    exact Nat.add_lt_add_left hx _

theorem le_head_write (hw : width ≤ 8) (hflags : flags.toNat % 2 ^ width = 0)
    {n : Nat} (hle : n ≤ flags.toNat) (v : Nat) (rest : Octets) :
    ∃ b, (write width flags v ++ rest).head? = some b ∧ n ≤ b.toNat := by
  obtain ⟨b, hb, hle', -⟩ := head?_write hw hflags v rest
  exact ⟨b, hb, hle.trans hle'⟩

/-! ## Groups -/

theorem toNat_lastGroup {v : Nat} (hv : v < 128) : (UInt8.ofNat v).toNat = v := by
  rw [UInt8.toNat_ofNat']
  omega

theorem toNat_group (v : Nat) : (UInt8.ofNat (128 + v % 128)).toNat = 128 + v % 128 := by
  rw [UInt8.toNat_ofNat']
  omega

/-- A value is its lowest group, and the rest of it one place higher. -/
theorem mod_add_div_groups (v place : Nat) :
    v % 128 * 128 ^ place + v / 128 * 128 ^ (place + 1) = v * 128 ^ place := by
  rw [Nat.pow_succ', ← Nat.mul_assoc, ← Nat.add_mul]
  congr 1
  omega

/-- A group has a factor of 128 for each that stands before it. -/
theorem shiftLeft_groups (v place : Nat) : v <<< (7 * place) = v * 128 ^ place := by
  rw [Nat.shiftLeft_eq, Nat.pow_mul]

/-- Groups that were written are added at their place. -/
theorem sumGroups_groups (v : Nat) (sum place : Nat) (rest : Octets) :
    sumGroups sum place (groups v ++ rest) = some (sum + v * 128 ^ place, rest) := by
  induction v using groups.induct generalizing sum place with
  | case1 v hv =>
    rw [groups, if_pos hv, List.singleton_append, sumGroups, toNat_lastGroup hv, if_pos hv, Nat.mod_eq_of_lt hv,
      shiftLeft_groups]
  | case2 v hv ih =>
    rw [groups, if_neg hv, List.cons_append, sumGroups, toNat_group, if_neg (by omega), Nat.add_mod_left,
      Nat.mod_mod, shiftLeft_groups, ih, Nat.add_assoc, mod_add_div_groups]

/-- So they are as far as a value may go. -/
theorem readGroups_groups (v : Nat) {sum place : Nat} (hplace : place ≤ 8)
    (hmax : sum + v * 128 ^ place ≤ maximum) (rest : Octets) :
    readGroups sum place (groups v ++ rest) = .ok (sum + v * 128 ^ place, rest) := by
  induction v using groups.induct generalizing sum place with
  | case1 v hv =>
    rw [groups, if_pos hv, List.singleton_append, readGroups, toNat_lastGroup hv, Nat.mod_eq_of_lt hv, shiftLeft_groups,
      if_neg (Nat.not_lt.2 hplace), if_neg (Nat.not_lt.2 hmax), if_pos hv]
  | case2 v hv ih =>
    have hsplit := mod_add_div_groups v place
    -- another group has room: the value would exceed the maximum otherwise
    have hnext : place + 1 ≤ 8 := by
      by_contra hc
      have height : place = 8 := by omega
      subst height
      rw [maximum, Nat.one_shiftLeft] at hmax
      omega
    rw [groups, if_neg hv, List.cons_append, readGroups, toNat_group, Nat.add_mod_left, Nat.mod_mod, shiftLeft_groups,
      if_neg (Nat.not_lt.2 hplace), if_neg (by omega), if_neg (by omega),
      ih hnext (by omega), Nat.add_assoc, hsplit]

/-- So many groups hold so many places of a value. -/
theorem length_groups_le {v k : Nat} (hk : 0 < k) (hv : v < 128 ^ k) : (groups v).length ≤ k := by
  induction v using groups.induct generalizing k with
  | case1 v hlast =>
    rw [groups, if_pos hlast]
    exact hk
  | case2 v hmore ih =>
    obtain ⟨j, rfl⟩ : ∃ j, k = j + 1 := ⟨k - 1, by omega⟩
    have hj : 0 < j := by
      rcases j with _ | j
      · omega
      · exact Nat.succ_pos j
    have hdiv : v / 128 < 128 ^ j := Nat.div_lt_of_lt_mul (by rwa [← Nat.pow_succ'])
    rw [groups, if_neg hmore, List.length_cons]
    exact Nat.succ_le_succ (ih hj hdiv)

theorem length_groups_mono {v w : Nat} (h : v ≤ w) : (groups v).length ≤ (groups w).length := by
  induction w using groups.induct generalizing v with
  | case1 w hlast =>
    rw [groups.eq_def v, groups.eq_def w, if_pos hlast, if_pos (by omega)]
    exact Nat.le_refl 1
  | case2 w hmore ih =>
    rw [groups.eq_def v, groups.eq_def w, if_neg hmore]
    split
    · exact Nat.succ_le_succ (Nat.zero_le _)
    · exact Nat.succ_le_succ (ih (Nat.div_le_div_right h))

/-- A smaller value takes no more octets, whatever the flags. -/
theorem length_write_mono (width : Nat) (flags flags' : UInt8) {v w : Nat} (h : v ≤ w) :
    (write width flags v).length ≤ (write width flags' w).length := by
  rw [write, write]
  by_cases hw : w < ones width
  · rw [if_pos hw, if_pos (by omega)]
    exact Nat.le_refl 1
  · rw [if_neg hw]
    split
    · exact Nat.succ_le_succ (Nat.zero_le _)
    · exact Nat.succ_le_succ (length_groups_mono (Nat.sub_le_sub_right h _))

/-! ## Reading -/

/-- An integer that was written is read again, and what follows it is left. -/
theorem readAny?_write (hw : width ≤ 8) (hflags : flags.toNat % 2 ^ width = 0) (v : Nat) (rest : Octets) :
    readAny? width (write width flags v ++ rest) = some (v, rest) := by
  have hones := ones_lt width
  rw [write]
  by_cases hlt : v < ones width
  · rw [if_pos hlt, List.singleton_append, readAny?, Nat.one_shiftLeft,
      mod_or_ofNat hflags (Nat.lt_trans hlt hones) hw, if_pos hlt]
  · rw [if_neg hlt, List.cons_append, readAny?, Nat.one_shiftLeft, mod_or_ofNat hflags hones hw,
      if_neg (Nat.lt_irrefl _), sumGroups_groups, Nat.pow_zero, Nat.mul_one, Nat.add_sub_cancel' (Nat.le_of_not_lt hlt)]

/-- So is one that has at most 62 bits, by a reader that takes no more. -/
theorem read_write (hpos : 1 ≤ width) (hw : width ≤ 8) (hflags : flags.toNat % 2 ^ width = 0) {v : Nat}
    (hv : v ≤ maximum) (rest : Octets) : read width (write width flags v ++ rest) = .ok (v, rest) := by
  have hones := ones_lt width
  rw [read.eq_def, if_neg (by omega), write, Nat.one_shiftLeft]
  by_cases hlt : v < ones width
  · rw [if_pos hlt, List.singleton_append]
    dsimp only
    rw [mod_or_ofNat hflags (Nat.lt_trans hlt hones) hw, if_pos hlt]
  · rw [if_neg hlt, List.cons_append]
    dsimp only
    have hsum : ones width + (v - ones width) * 128 ^ 0 = v := by
      rw [Nat.pow_zero, Nat.mul_one]
      omega
    rw [mod_or_ofNat hflags hones hw, if_neg (Nat.lt_irrefl _), readGroups_groups _ (by decide) (by omega), hsum]

theorem decode_write (hpos : 1 ≤ width) (hw : width ≤ 8) (hflags : flags.toNat % 2 ^ width = 0) {v : Nat}
    (hv : v ≤ maximum) (rest : Octets) :
    decode width (write width flags v ++ rest) = .ok (v, (write width flags v).length) := by
  rw [decode, read_write hpos hw hflags hv]
  dsimp only
  rw [List.length_append, Nat.add_sub_cancel]

/-! ## Octets that go on -/

/-- Unless the octets end too early, it does not matter what follows them. -/
theorem readGroups_append {sum place : Nat} {data : Octets} (h : readGroups sum place data ≠ .error .truncated)
    (more : Octets) :
    readGroups sum place (data ++ more) = (readGroups sum place data).map fun (v, rest) => (v, rest ++ more) := by
  induction data generalizing sum place with
  | nil => exact absurd rfl h
  | cons b tail ih =>
    rw [List.cons_append]
    unfold readGroups at h ⊢
    split
    · rfl
    · split
      · rfl
      · split
        · rfl
        · apply ih
          simp_all

theorem read_append {data : Octets} (h : read width data ≠ .error .truncated) (more : Octets) :
    read width (data ++ more) = (read width data).map fun (v, rest) => (v, rest ++ more) := by
  unfold read at h ⊢
  split
  · rfl
  · next hw =>
    rw [if_neg hw] at h
    cases data with
    | nil => exact absurd rfl h
    | cons b tail =>
      dsimp only [List.cons_append] at h ⊢
      split
      · rfl
      · next hlong =>
        rw [if_neg hlong] at h
        exact readGroups_append h more

/-- What was read is a part of the octets that can be read alone. -/
theorem readGroups_part {sum place v : Nat} {data rest : Octets} (h : readGroups sum place data = .ok (v, rest)) :
    ∃ part, data = part ++ rest ∧ readGroups sum place part = .ok (v, []) := by
  induction data generalizing sum place with
  | nil => cases h
  | cons b tail ih =>
    rw [readGroups] at h
    split at h
    · cases h
    · next hplace =>
      split at h
      · cases h
      · next hmax =>
        split at h
        · next hlast =>
          obtain ⟨rfl, rfl⟩ := Prod.mk.inj (Except.ok.inj h)
          refine ⟨[b], rfl, ?_⟩
          rw [readGroups, if_neg hplace, if_neg hmax, if_pos hlast]
        · next hmore =>
          obtain ⟨part, rfl, hpart⟩ := ih h
          refine ⟨b :: part, rfl, ?_⟩
          rw [readGroups, if_neg hplace, if_neg hmax, if_neg hmore, hpart]

theorem read_part {v : Nat} {data rest : Octets} (h : read width data = .ok (v, rest)) :
    ∃ part, data = part ++ rest ∧ part ≠ [] ∧ read width part = .ok (v, []) := by
  unfold read at h
  split at h
  · cases h
  · next hw =>
    cases data with
    | nil => cases h
    | cons b tail =>
      dsimp only at h
      split at h
      · next hshort =>
        obtain ⟨rfl, rfl⟩ := Prod.mk.inj (Except.ok.inj h)
        refine ⟨[b], rfl, List.cons_ne_nil b [], ?_⟩
        rw [read.eq_def, if_neg hw]
        exact if_pos hshort
      · next hlong =>
        obtain ⟨part, rfl, hpart⟩ := readGroups_part h
        refine ⟨b :: part, rfl, List.cons_ne_nil b part, ?_⟩
        rw [read.eq_def, if_neg hw]
        exact (if_neg hlong).trans hpart

end Qpack.Integer
