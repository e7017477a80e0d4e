import Qpack.Proofs.Wire.Integer.Word
import Mathlib.Data.Nat.Digits.Lemmas

/-!
# Which octets are an integer

A string of octets begins with an integer, or ends before one does, or can be continued in no way that
makes it one. The grammar tells which, without the reader.

* `total` : the value of groups; `GoesOn` : octets with another one behind each of them;
* `IsInteger`, `Unfinished` : the octets of an integer and its value, and those that need more;
* `readGroups_run` : a reader on the way through groups that go on;
* `Outcome`, `readGroups_eq_iff` : all that can stop it, and what it says then;
* `read_eq_ok_iff`, `read_eq_truncated_iff` : the reader finds exactly these;
* `DecodedExactly`, `decodedExactly` : value, count and error of every string, from the first eleven octets;
* `SelfDelimiting`, `selfDelimiting_write` : what is written is found whole, and never before its end.
-/

namespace Qpack.Integer

/-- The value of groups, the first of them lowest. -/
def total (octets : Octets) : Nat := Nat.ofDigits 128 (octets.map fun b => b.toNat % 128)

/-- Behind each octet another one has to follow. -/
def GoesOn (octets : Octets) : Prop := ∀ b ∈ octets, 128 ≤ b.toNat

/-- Octets that are one integer, in the low `width` bits of the first of them and in at most nine groups,
and its value. -/
inductive IsInteger (width : Nat) : Octets → Nat → Prop
  | short {b : UInt8} (hlow : b.toNat % 2 ^ width < ones width) : IsInteger width [b] (b.toNat % 2 ^ width)
  | long {b last : UInt8} {front : Octets} (hlow : b.toNat % 2 ^ width = ones width) (hfront : GoesOn front)
      (hlast : last.toNat < 128) (hlen : front.length + 1 ≤ 9)
      (hmax : ones width + total (front ++ [last]) ≤ maximum) :
      IsInteger width (b :: (front ++ [last])) (ones width + total (front ++ [last]))

/-- Octets that may be the beginning of an integer and are none. -/
inductive Unfinished (width : Nat) : Octets → Prop
  | nil : Unfinished width []
  | cons {b : UInt8} {front : Octets} (hlow : b.toNat % 2 ^ width = ones width) (hfront : GoesOn front)
      (hlen : front.length ≤ 9) (hmax : ones width + total front ≤ maximum) : Unfinished width (b :: front)

variable {width sum place v n : Nat} {data front rest octets : Octets} {b last : UInt8}

/-! ## Values of groups -/

theorem total_nil : total [] = 0 := rfl

theorem total_cons (b : UInt8) (octets : Octets) : total (b :: octets) = b.toNat % 128 + 128 * total octets := rfl

theorem total_lt (octets : Octets) : total octets < 128 ^ octets.length := by
  have hlt := Nat.ofDigits_lt_base_pow_length (b := 128) (l := octets.map fun b => b.toNat % 128) (by decide) (by
    intro d hd
    obtain ⟨b, -, rfl⟩ := List.mem_map.1 hd
    exact Nat.mod_lt _ (by decide))
  rwa [List.length_map] at hlt

/-- The first group in its place, and the others from the next place on. -/
theorem total_cons_mul (b : UInt8) (octets : Octets) (place : Nat) :
    total (b :: octets) * 128 ^ place = b.toNat % 128 * 128 ^ place + total octets * 128 ^ (place + 1) := by
  rw [total_cons, Nat.pow_succ]
  ring

theorem goesOn_cons : GoesOn (b :: octets) ↔ 128 ≤ b.toNat ∧ GoesOn octets := List.forall_mem_cons

/-! ## Groups -/

theorem readGroups_cons (sum place : Nat) (b : UInt8) (rest : Octets) :
    readGroups sum place (b :: rest) =
      if 8 < place then .error .overlong
      else if maximum < sum + b.toNat % 128 * 128 ^ place then .error .tooLarge
      else if b.toNat < 128 then .ok (sum + b.toNat % 128 * 128 ^ place, rest)
      else readGroups (sum + b.toNat % 128 * 128 ^ place) (place + 1) rest := by
  rw [readGroups, shiftLeft_groups]

/-- A reader goes through groups that go on, as long as there are nine places and 62 bits for them. -/
theorem readGroups_run (hfront : GoesOn front) (hplace : place + front.length ≤ 9)
    (hmax : sum + total front * 128 ^ place ≤ maximum) (rest : Octets) :
    readGroups sum place (front ++ rest) =
      readGroups (sum + total front * 128 ^ place) (place + front.length) rest := by
  induction front generalizing sum place with
  | nil => simp [total_nil]
  | cons b front ih =>
    obtain ⟨hb, htail⟩ := goesOn_cons.1 hfront
    rw [List.length_cons] at hplace
    rw [total_cons_mul, ← Nat.add_assoc] at hmax
    rw [List.cons_append, readGroups_cons, if_neg (by omega), if_neg (by omega), if_neg (by omega),
      ih htail (by omega) hmax, total_cons_mul, ← Nat.add_assoc, List.length_cons]
    congr 1
    omega

/-- How a reader that has `sum` comes to an end with the groups from the one at `place` on: what it goes
through, and what stops it. -/
inductive Outcome (sum place : Nat) : Octets → Except Fault (Nat × Octets) → Prop
  | truncated {front : Octets} (hfront : GoesOn front) (hlen : place + front.length ≤ 9)
      (hmax : sum + total front * 128 ^ place ≤ maximum) : Outcome sum place front (.error .truncated)
  | overlong (front : Octets) {rest : Octets} {b : UInt8} (hfront : GoesOn front)
      (hlen : place + front.length = 9) (hmax : sum + total front * 128 ^ place ≤ maximum) :
      Outcome sum place (front ++ b :: rest) (.error .overlong)
  | tooLarge (front : Octets) {rest : Octets} {b : UInt8} (hfront : GoesOn front)
      (hlen : place + front.length ≤ 8) (hmax : sum + total front * 128 ^ place ≤ maximum)
      (hlarge : maximum < sum + total (front ++ [b]) * 128 ^ place) :
      Outcome sum place (front ++ b :: rest) (.error .tooLarge)
  | ok (front : Octets) {rest : Octets} {last : UInt8} (hfront : GoesOn front) (hlast : last.toNat < 128)
      (hlen : place + front.length ≤ 8) (hmax : sum + total (front ++ [last]) * 128 ^ place ≤ maximum) :
      Outcome sum place (front ++ last :: rest) (.ok (sum + total (front ++ [last]) * 128 ^ place, rest))

/-- A group that goes on, before all else. -/
theorem Outcome.cons {r : Except Fault (Nat × Octets)} (hb : 128 ≤ b.toNat)
    (h : Outcome (sum + b.toNat % 128 * 128 ^ place) (place + 1) rest r) : Outcome sum place (b :: rest) r := by
  have hsum : ∀ octets, sum + b.toNat % 128 * 128 ^ place + total octets * 128 ^ (place + 1) =
      sum + total (b :: octets) * 128 ^ place := by
    intro octets
    rw [total_cons_mul, Nat.add_assoc]
  cases h with
  | truncated hfront hlen hmax =>
    rw [hsum] at hmax
    exact .truncated (goesOn_cons.2 ⟨hb, hfront⟩) (by rw [List.length_cons]; omega) hmax
  | overlong front hfront hlen hmax =>
    rw [hsum] at hmax
    exact .overlong (b :: front) (goesOn_cons.2 ⟨hb, hfront⟩) (by rw [List.length_cons]; omega) hmax
  | tooLarge front hfront hlen hmax hlarge =>
    rw [hsum] at hmax hlarge
    exact .tooLarge (b :: front) (goesOn_cons.2 ⟨hb, hfront⟩) (by rw [List.length_cons]; omega) hmax hlarge
  | ok front hfront hlast hlen hmax =>
    rw [hsum] at hmax ⊢
    exact .ok (b :: front) (goesOn_cons.2 ⟨hb, hfront⟩) hlast (by rw [List.length_cons]; omega) hmax

theorem outcome_readGroups (hplace : place ≤ 9) (hsum : sum ≤ maximum) (data : Octets) :
    Outcome sum place data (readGroups sum place data) := by
  have hnil : GoesOn [] := fun b hb => (List.not_mem_nil hb).elim
  have hstart : sum + total [] * 128 ^ place ≤ maximum := by rwa [total_nil, Nat.zero_mul]
  induction data generalizing sum place with
  | nil => exact .truncated hnil hplace hstart
  | cons b rest ih =>
    have hone : sum + b.toNat % 128 * 128 ^ place = sum + total ([] ++ [b]) * 128 ^ place := by
      rw [List.nil_append, total_cons_mul, total_nil, Nat.zero_mul, Nat.add_zero]
    rw [readGroups_cons]
    split
    · next hfull => exact .overlong [] hnil (by simp; omega) hstart
    · next hroom =>
      split
      · next hlarge => exact .tooLarge [] hnil (by simp; omega) hstart (hone ▸ hlarge)
      · next hmax =>
        split
        · next hlast =>
          rw [hone] at hmax ⊢
          exact .ok [] hnil hlast (by simp; omega) (Nat.not_lt.1 hmax)
        · next hmore =>
          have hle := Nat.not_lt.1 hmax
          exact (ih (by omega) hle (by rwa [total_nil, Nat.zero_mul])).cons (Nat.not_lt.1 hmore)

/-- The groups before the last one, and that one in its place. -/
theorem total_append_mul (front : Octets) (last : UInt8) (place : Nat) :
    total (front ++ [last]) * 128 ^ place =
      total front * 128 ^ place + last.toNat % 128 * 128 ^ (place + front.length) := by
  simp only [total, List.map_append, List.map_cons, List.map_nil, Nat.ofDigits_append, Nat.ofDigits_singleton,
    List.length_map, Nat.pow_add]
  ring

/-- The outcomes do not overlap: each is what the reader says. -/
theorem Outcome.readGroups_eq {r : Except Fault (Nat × Octets)} (h : Outcome sum place data r) :
    readGroups sum place data = r := by
  cases h with
  | truncated hfront hlen hmax =>
    have hrun := readGroups_run hfront hlen hmax []
    rw [List.append_nil] at hrun
    rw [hrun]
    rfl
  | overlong front hfront hlen hmax =>
    rw [readGroups_run hfront hlen.le hmax, readGroups_cons, if_pos (by omega)]
  | tooLarge front hfront hlen hmax hlarge =>
    rw [total_append_mul, ← Nat.add_assoc] at hlarge
    rw [readGroups_run hfront (by omega) hmax, readGroups_cons, if_neg (by omega), if_pos hlarge]
  | ok front hfront hlast hlen hmax =>
    rw [total_append_mul, ← Nat.add_assoc] at hmax ⊢
    rw [readGroups_run hfront (by omega) (by omega), readGroups_cons, if_neg (by omega), if_neg (by omega),
      if_pos hlast]

theorem readGroups_eq_iff (hplace : place ≤ 9) (hsum : sum ≤ maximum) {r : Except Fault (Nat × Octets)} :
    readGroups sum place data = r ↔ Outcome sum place data r :=
  ⟨fun h => h ▸ outcome_readGroups hplace hsum data, Outcome.readGroups_eq⟩

/-! ## Integers -/

/-- The reader by the low bits of the first octet. -/
theorem read_cons (hpos : 1 ≤ width) (hw : width ≤ 8) (b : UInt8) (rest : Octets) :
    read width (b :: rest) =
      if b.toNat % 2 ^ width < ones width then .ok (b.toNat % 2 ^ width, rest)
      else readGroups (ones width) 0 rest := by
  rw [read.eq_def, if_neg (by omega), Nat.one_shiftLeft]
  dsimp only
  have hmod := Nat.mod_lt b.toNat (Nat.two_pow_pos width)
  have hones : ones width = 2 ^ width - 1 := by rw [ones, Nat.one_shiftLeft]
  split
  · rfl
  · rw [show b.toNat % 2 ^ width = ones width by omega]

theorem low_eq_ones (b : UInt8) (h : ¬ b.toNat % 2 ^ width < ones width) : b.toNat % 2 ^ width = ones width := by
  have hmod := Nat.mod_lt b.toNat (Nat.two_pow_pos width)
  rw [ones, Nat.one_shiftLeft] at h ⊢
  omega

theorem ones_le_maximum (hw : width ≤ 8) : ones width ≤ maximum := by
  have hpow : 2 ^ width ≤ 2 ^ 8 := Nat.pow_le_pow_right (by decide) hw
  rw [ones, maximum, Nat.one_shiftLeft, Nat.one_shiftLeft]
  omega

theorem read_eq_ok_iff (hpos : 1 ≤ width) (hw : width ≤ 8) :
    read width data = .ok (v, rest) ↔ ∃ octets, data = octets ++ rest ∧ IsInteger width octets v := by
  cases data with
  | nil =>
    rw [read.eq_def, if_neg (by omega)]
    constructor
    · intro h
      cases h
    · rintro ⟨octets, he, hint⟩
      obtain ⟨rfl, rfl⟩ := List.append_eq_nil_iff.1 he.symm
      cases hint
  | cons b tail =>
    rw [read_cons hpos hw]
    constructor
    · intro h
      split at h
      · next hlow =>
        cases h
        exact ⟨[b], rfl, .short hlow⟩
      · next hlong =>
        cases (readGroups_eq_iff (by decide) (ones_le_maximum hw)).1 h with
        | @ok front _ last hfront hlast hlen hmax =>
          rw [Nat.pow_zero, Nat.mul_one] at hmax ⊢
          exact ⟨b :: (front ++ [last]), by simp, .long (low_eq_ones b hlong) hfront hlast (by omega) hmax⟩
    · rintro ⟨octets, he, hint⟩
      cases hint with
      | short hlow =>
        cases he
        rw [if_pos hlow]
        rfl
      | @long b' last front hlow hfront hlast hlen hmax =>
        obtain ⟨rfl, rfl⟩ : b = b' ∧ tail = front ++ last :: rest := by simpa using he
        have hgroups : Outcome (ones width) 0 (front ++ last :: rest) _ :=
          .ok front hfront hlast (by omega) (by rwa [Nat.pow_zero, Nat.mul_one])
        rw [if_neg (by omega), hgroups.readGroups_eq, Nat.pow_zero, Nat.mul_one]

theorem read_eq_truncated_iff (hpos : 1 ≤ width) (hw : width ≤ 8) :
    read width data = .error .truncated ↔ Unfinished width data := by
  cases data with
  | nil =>
    rw [read.eq_def, if_neg (by omega)]
    exact ⟨fun _ => .nil, fun _ => rfl⟩
  | cons b tail =>
    rw [read_cons hpos hw]
    constructor
    · intro h
      split at h
      · cases h
      · next hlong =>
        cases (readGroups_eq_iff (by decide) (ones_le_maximum hw)).1 h with
        | truncated hfront hlen hmax =>
          rw [Nat.pow_zero, Nat.mul_one] at hmax
          exact .cons (low_eq_ones b hlong) hfront (by omega) hmax
    · intro h
      cases h with
      | cons hlow hfront hlen hmax =>
        rw [if_neg (by omega)]
        exact Outcome.readGroups_eq (.truncated hfront (by omega) (by rwa [Nat.pow_zero, Nat.mul_one]))

theorem read_ne_badWidth (hpos : 1 ≤ width) (hw : width ≤ 8) : read width data ≠ .error .badWidth := by
  intro h
  cases data with
  | nil =>
    rw [read.eq_def, if_neg (by omega)] at h
    cases h
  | cons b tail =>
    rw [read_cons hpos hw] at h
    split at h
    · cases h
    · cases (readGroups_eq_iff (by decide) (ones_le_maximum hw)).1 h

/-! ## Counts -/

theorem IsInteger.length_le (h : IsInteger width octets v) : octets.length ≤ 10 := by
  cases h with
  | short hlow => exact (by decide : 1 ≤ 10)
  | long hlow hfront hlast hlen hmax =>
    rw [List.length_cons, List.length_append, List.length_singleton]
    omega

theorem IsInteger.le_maximum (hw : width ≤ 8) (h : IsInteger width octets v) : v ≤ maximum := by
  cases h with
  | short hlow => exact hlow.le.trans (ones_le_maximum hw)
  | long hlow hfront hlast hlen hmax => exact hmax

theorem Unfinished.length_le (h : Unfinished width data) : data.length ≤ 10 := by
  cases h with
  | nil => exact Nat.zero_le 10
  | cons hlow hfront hlen hmax => exact Nat.succ_le_succ hlen

/-- The value has no shorter form than the one that is written. -/
theorem IsInteger.length_write_le (h : IsInteger width octets v) (flags : UInt8) :
    (write width flags v).length ≤ octets.length := by
  cases h with
  | short hlow =>
    rw [write, if_pos hlow]
    exact Nat.le_refl 1
  | @long b last front hlow hfront hlast hlen hmax =>
    have hlt := total_lt (front ++ [last])
    rw [write, if_neg (Nat.not_lt.2 (Nat.le_add_right _ _)), Nat.add_sub_cancel_left, List.length_cons,
      List.length_cons]
    exact Nat.succ_le_succ (length_groups_le (by simp) hlt)

theorem decode_eq_ok_iff (hpos : 1 ≤ width) (hw : width ≤ 8) :
    decode width data = .ok (v, n) ↔ n ≤ data.length ∧ IsInteger width (data.take n) v := by
  have hread : decode width data = .ok (v, n) ↔
      ∃ rest, read width data = .ok (v, rest) ∧ data.length - rest.length = n := by
    rw [decode]
    cases read width data with
    | error fault => simp
    | ok p => simp [Prod.ext_iff]
  rw [hread]
  constructor
  · rintro ⟨rest, hr, rfl⟩
    obtain ⟨octets, rfl, hint⟩ := (read_eq_ok_iff hpos hw).1 hr
    simpa using hint
  · rintro ⟨hn, hint⟩
    refine ⟨data.drop n, (read_eq_ok_iff hpos hw).2 ⟨data.take n, (List.take_append_drop n data).symm, hint⟩, ?_⟩
    rw [List.length_drop]
    omega

theorem decode_eq_incomplete_iff (hpos : 1 ≤ width) (hw : width ≤ 8) :
    decode width data = .error (.incomplete 1) ↔ Unfinished width data := by
  rw [← read_eq_truncated_iff hpos hw, decode]
  rcases read width data with fault | ⟨v, rest⟩
  · cases fault <;> simp [Fault.toError]
  · simp

/-- Octets that are neither an integer nor the beginning of one are malformed. -/
theorem decode_eq_malformed_iff (hpos : 1 ≤ width) (hw : width ≤ 8) :
    (∃ detail, decode width data = .error (.malformedInteger detail)) ↔
      (∀ v n, decode width data ≠ .ok (v, n)) ∧ decode width data ≠ .error (.incomplete 1) := by
  rw [decode]
  rcases hr : read width data with fault | ⟨v, rest⟩
  · cases fault with
    | badWidth => exact absurd hr (read_ne_badWidth hpos hw)
    | truncated => simp [Fault.toError]
    | overlong => simp [Fault.toError]
    | tooLarge => simp [Fault.toError]
  · simp

/-- Eleven octets are enough to tell: one with the flags, and ten groups, the last of them one too many. -/
theorem decode_take (hpos : 1 ≤ width) (hw : width ≤ 8) (data : Octets) :
    decode width (data.take 11) = decode width data := by
  by_cases hlen : data.length ≤ 11
  · rw [List.take_of_length_le hlen]
  · have hdone : read width (data.take 11) ≠ .error .truncated := by
      intro h
      have hshort := ((read_eq_truncated_iff hpos hw).1 h).length_le
      rw [List.length_take] at hshort
      omega
    have hmore := read_append hdone (data.drop 11)
    rw [List.take_append_drop] at hmore
    rw [decode, decode, hmore]
    rcases read width (data.take 11) with fault | ⟨v, rest⟩
    · rfl
    · show Except.ok (v, (data.take 11).length - rest.length) =
        Except.ok (v, data.length - (rest ++ data.drop 11).length)
      rw [List.length_take, List.length_append, List.length_drop]
      congr 2
      omega

/-! ## Main statements -/

/-- Value, count and error are what the grammar says about the octets. -/
structure DecodedExactly (width : Nat) (data : Octets) : Prop where
  /-- There is a value, and a count, exactly if so many octets are an integer. -/
  ok : ∀ v n, decode width data = .ok (v, n) ↔ n ≤ data.length ∧ IsInteger width (data.take n) v
  incomplete : decode width data = .error (.incomplete 1) ↔ Unfinished width data
  /-- All else is malformed. -/
  malformed : (∃ detail, decode width data = .error (.malformedInteger detail)) ↔
    (∀ v n, ¬ (n ≤ data.length ∧ IsInteger width (data.take n) v)) ∧ ¬ Unfinished width data
  bounded : ∀ v n, decode width data = .ok (v, n) → n ≤ 10 ∧ v ≤ maximum
  /-- No shift of a 64-bit word loses a bit, and no sum wraps: words give what numbers give. -/
  exact_shift : Word.read width data ≠ .error .shift
  exact_sum : Word.read width data ≠ .error .sum
  words : Word.read width data = Word.ofRead (read width data)
  /-- What stands behind eleven octets is not looked at. -/
  ahead : ∀ other : Octets, other.take 11 = data.take 11 → decode width other = decode width data
  /-- The value, written with the same width, takes no more octets. -/
  shortest : ∀ v n flags, decode width data = .ok (v, n) → (write width flags v).length ≤ n

theorem decodedExactly (hpos : 1 ≤ width) (hw : width ≤ 8) (data : Octets) : DecodedExactly width data where
  ok _ _ := decode_eq_ok_iff hpos hw
  incomplete := decode_eq_incomplete_iff hpos hw
  malformed := by
    rw [decode_eq_malformed_iff hpos hw, Ne, decode_eq_incomplete_iff hpos hw]
    simp only [Ne, decode_eq_ok_iff hpos hw]
  bounded v n h := by
    obtain ⟨hn, hint⟩ := (decode_eq_ok_iff hpos hw).1 h
    have hlen := hint.length_le
    rw [List.length_take] at hlen
    exact ⟨by omega, hint.le_maximum hw⟩
  exact_shift := by
    rw [Word.read_eq]
    exact Word.ofRead_ne_shift _
  exact_sum := by
    rw [Word.read_eq]
    exact Word.ofRead_ne_sum _
  words := Word.read_eq width data
  ahead other h := by
    rw [← decode_take hpos hw other, h, decode_take hpos hw]
  shortest v n flags h := by
    obtain ⟨hn, hint⟩ := (decode_eq_ok_iff hpos hw).1 h
    have hle := hint.length_write_le flags
    rw [List.length_take] at hle
    omega

/-- Nine groups, eight of them without a value and written for nothing. -/
theorem decodedExactly_padded :
    decode 8 [0xFF, 0x80, 0x80, 0x80, 0x80, 0x80, 0x80, 0x80, 0x80, 0x00, 0xC1] = .ok (255, 10) ∧
      DecodedExactly 8 [0xFF, 0x80, 0x80, 0x80, 0x80, 0x80, 0x80, 0x80, 0x80, 0x00, 0xC1] :=
  ⟨by decide +kernel, decodedExactly (by decide) (by decide) _⟩

/-- An integer that is written keeps the flags above it, is found whole whatever follows it, and is waited
for as long as an octet of it is missing. -/
structure SelfDelimiting (width : Nat) (flags : UInt8) (v : Nat) : Prop where
  whole : ∀ rest, decode width (write width flags v ++ rest) = .ok (v, (write width flags v).length)
  above : ∃ b tail, write width flags v = b :: tail ∧
    ∀ i, width ≤ i → b.toNat.testBit i = flags.toNat.testBit i
  part : ∀ front, front <+: write width flags v → front ≠ write width flags v →
    decode width front = .error (.incomplete 1)

theorem selfDelimiting_write (hpos : 1 ≤ width) (hw : width ≤ 8) {flags : UInt8}
    (hflags : flags.toNat % 2 ^ width = 0) (hv : v ≤ maximum) : SelfDelimiting width flags v where
  whole rest := decode_write hpos hw hflags hv rest
  above := by
    obtain ⟨x, tail, hx, he⟩ := write_head width flags v
    exact ⟨_, tail, he, fun i hi => testBit_or_ofNat hx hw hi⟩
  part front hfront hne := by
    obtain ⟨more, he⟩ := hfront
    rw [decode_eq_incomplete_iff hpos hw, ← read_eq_truncated_iff hpos hw]
    by_contra hdone
    -- what is read of a part would be read of the whole, with something left
    have hall := read_append hdone more
    have hwhole := read_write hpos hw hflags hv []
    rw [List.append_nil, ← he, hall] at hwhole
    rcases hr : read width front with fault | ⟨w, rest⟩
    · rw [hr] at hwhole
      cases hwhole
    · rw [hr] at hwhole
      have hnil : rest ++ more = [] := congrArg Prod.snd (Except.ok.inj hwhole)
      obtain ⟨-, rfl⟩ := List.append_eq_nil_iff.1 hnil
      rw [List.append_nil] at he
      exact hne he

/-- The largest value behind three flags takes ten octets. -/
theorem selfDelimiting_write_maximum :
    (write 5 0xE0 maximum).length = 10 ∧ SelfDelimiting 5 0xE0 maximum :=
  ⟨by decide +kernel, selfDelimiting_write (by decide) (by decide) (by decide) (Nat.le_refl _)⟩

end Qpack.Integer
