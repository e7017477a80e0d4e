import Qpack.Wire.Huffman
import Mathlib.Algebra.Group.Nat.Defs
import Mathlib.Data.List.Sort

/-!
# Strings that were coded

A code word stands for all words of 30 bits that begin with it. Those of different octets do not meet,
which shows in the order of the first of them. So reading bit by bit finds each octet, and finds it at the
end of its code word.

At each octet of a string, what is written and the bits that wait are together the code words so far. The
64-bit word that takes up the next code word has room for it.

* `Code.start`, `Code.stop`, `Code.Before` : the words of 30 bits that begin with a code word;
* `codes_apart` : those of two code words do not meet;
* `Code.shorten`, `eq_of_shorten` : the first bits of a code word are one only if they are all of it;
* `symbol?_code`, `symbol?_shorten` : so an octet is found at the end of its code word, and not before;
* `bitsAt` : some bits of a number, highest first;
* `toNat_shiftLeft_or` : a word in front of some bits of another is a number with both;
* `bits_push`, `bits_finish` : the bits that are written, and those that wait;
* `encodeFrom_append` : what the first part of a string leaves to the rest of it;
* `bits_encode`, `length_encode` : a coded string is the code words of its octets, and fewer than eight ones;
* `decode?_encode`, `encode_injective` : it is read again, so different strings are coded differently;
* `Pending.TakesUp`, `Valid.takesUp` : a code word behind the bits that wait, as a number;
* `Lossless`, `lossless_append` : size, bits and meaning of a string that is coded behind other octets.
-/

/-! ## No code word begins another -/

namespace Qpack.Huffman

/-- The first word of 30 bits that begins with a code word. -/
def Code.start (c : Code) : Nat := c.value <<< (30 - c.length)

/-- The first word of 30 bits behind all that begin with a code word. -/
def Code.stop (c : Code) : Nat := (c.value + 1) <<< (30 - c.length)

/-- The words of one code word come before those of the other. -/
def Code.Before (a b : Code) : Prop := a.stop ≤ b.start

instance (a b : Code) : Decidable (a.Before b) := inferInstanceAs (Decidable (a.stop ≤ b.start))

theorem Code.start_lt_stop (c : Code) : c.start < c.stop := by
  rw [start, stop, Nat.shiftLeft_eq, Nat.shiftLeft_eq]
  exact Nat.mul_lt_mul_of_pos_right (Nat.lt_succ_self _) (Nat.two_pow_pos _)

instance : Trans Code.Before Code.Before Code.Before where
  trans {_ b _} hab hbc := Nat.le_trans (Nat.le_trans hab b.start_lt_stop.le) hbc

/-- In the order of their first words, the code words follow one another. -/
theorem isChain_sorted :
    (codes.toList.insertionSort fun a b => Nat.ble a.start b.start = true).IsChain Code.Before := by
  decide +kernel

theorem codes_apart : codes.toList.Pairwise fun a b => a.Before b ∨ b.Before a := by
  have hsorted := (List.isChain_iff_pairwise.1 isChain_sorted).imp (S := fun a b : Code => a.Before b ∨ b.Before a)
    fun h => Or.inl h
  exact (List.Perm.pairwise_iff (fun h => h.symm) (List.perm_insertionSort _ _)).1 hsorted

theorem bounds_of_mem : ∀ c ∈ codes.toList, 5 ≤ c.length ∧ c.length ≤ 30 ∧ c.value < 2 ^ c.length := by
  decide +kernel

/-! ## The first bits -/

/-- A code word without its last `k` bits. -/
def Code.shorten (c : Code) (k : Nat) : Code := ⟨c.value >>> k, c.length - k⟩

/-- The words of a code word are among those of its first bits. -/
theorem Code.within_shorten (c : Code) {k : Nat} (hk : k ≤ c.length) (hlen : c.length ≤ 30) :
    (c.shorten k).start ≤ c.start ∧ c.stop ≤ (c.shorten k).stop := by
  have hpow : 2 ^ (30 - (c.length - k)) = 2 ^ k * 2 ^ (30 - c.length) := by
    rw [← Nat.pow_add]
    congr 1
    omega
  have hpos := Nat.two_pow_pos k
  have hdiv := Nat.div_add_mod c.value (2 ^ k)
  have hmod := Nat.mod_lt c.value hpos
  rw [start, stop, start, stop, shorten]
  simp only [Nat.shiftLeft_eq, Nat.shiftRight_eq_div_pow, hpow]
  rw [← Nat.mul_assoc, ← Nat.mul_assoc]
  refine ⟨Nat.mul_le_mul_right _ (Nat.div_mul_le_self _ _), Nat.mul_le_mul_right _ ?_⟩
  rw [Nat.add_mul, Nat.one_mul, Nat.mul_comm (c.value / 2 ^ k)]
  omega

/-- The first bits of a code word are a code word only if they are all of it. -/
theorem eq_of_shorten {i j k : Nat} {a b : Code} (ha : codes.toList[i]? = some a)
    (hb : codes.toList[j]? = some b) (hk : k ≤ b.length) (h : a = b.shorten k) : i = j := by
  obtain ⟨hi, rfl⟩ := List.getElem?_eq_some_iff.1 ha
  obtain ⟨hj, rfl⟩ := List.getElem?_eq_some_iff.1 hb
  have hlen := (bounds_of_mem _ (List.getElem_mem hj)).2.1
  have hin := Code.within_shorten _ hk hlen
  rw [← h] at hin
  have hlt := (codes.toList[j]).start_lt_stop
  have hapart := List.pairwise_iff_getElem.1 codes_apart
  -- the words of the one lie within those of the other, so neither come first
  have hmeet : ¬ (codes.toList[i].Before codes.toList[j] ∨ codes.toList[j].Before codes.toList[i]) := by
    rintro (hab | hba)
    · rw [Code.Before] at hab
      omega
    · rw [Code.Before] at hba
      omega
  rcases Nat.lt_trichotomy i j with hlt | heq | hlt
  · exact absurd (hapart i j hi hj hlt) hmeet
  · exact heq
  · exact absurd (hapart j i hj hi hlt).symm hmeet

/-! ## Finding an octet -/

theorem getElem?_code (b : UInt8) : codes.toList[b.toNat]? = some (code b) := by
  rw [code, ← Array.getElem_toList, List.getElem?_eq_getElem]

theorem getElem?_endCode : codes.toList[256]? = some endCode := by
  rw [endCode, ← Array.getElem_toList, List.getElem?_eq_getElem]

theorem bounds_code (b : UInt8) :
    5 ≤ (code b).length ∧ (code b).length ≤ 30 ∧ (code b).value < 2 ^ (code b).length :=
  bounds_of_mem _ (List.mem_of_getElem? (getElem?_code b))

/-- The code word of an octet gives the octet. -/
theorem symbol?_code (b : UInt8) : symbol? (code b) = some b := by
  have hb := b.toNat_lt
  have hlen : codes.toList.length = 257 := size_codes
  have hfind : (codes.toList.take 256).findIdx? (· == code b) = some b.toNat := by
    rw [List.findIdx?_eq_some_iff_getElem]
    have hget := getElem?_code b
    refine ⟨by rw [List.length_take]; omega, ?_, fun j hj => ?_⟩
    · rw [List.getElem_take, beq_iff_eq]
      exact Option.some.inj ((List.getElem?_eq_getElem _).symm.trans hget)
    · rw [List.getElem_take, beq_iff_eq]
      intro he
      exact absurd (eq_of_shorten (List.getElem?_eq_getElem _) hget (Nat.zero_le _) he) (Nat.ne_of_lt hj)
  rw [symbol?, hfind, Option.map_some, UInt8.ofNat_toNat]

/-- The first bits of a code word give no octet, unless they are all of one. -/
theorem symbol?_shorten {j k : Nat} {b : Code} (hb : codes.toList[j]? = some b) (hk : k ≤ b.length)
    (h : 0 < k ∨ j = 256) : symbol? (b.shorten k) = none := by
  rw [symbol?, Option.map_eq_none_iff, List.findIdx?_eq_none_iff]
  intro x hx
  obtain ⟨i, hi⟩ := List.getElem?_of_mem hx
  have hlt := (List.getElem?_eq_some_iff.1 hi).1
  rw [List.length_take] at hlt
  rw [List.getElem?_take_of_lt (by omega)] at hi
  rw [beq_eq_false_iff_ne]
  intro he
  obtain rfl := eq_of_shorten hi hb hk he
  rcases h with hpos | rfl
  · rw [hi] at hb
    have hlen := congrArg Code.length ((Option.some.inj hb).symm.trans he)
    rw [Code.shorten] at hlen
    dsimp only at hlen
    omega
  · omega

end Qpack.Huffman

namespace Qpack.Huffman

/-! ## Bits of a number -/

/-- The `len` bits of a number from the one at `low` on, highest first. -/
def bitsAt (n low len : Nat) : List Bool := (List.range len).reverse.map fun i => n.testBit (low + i)

theorem length_bitsAt (n low len : Nat) : (bitsAt n low len).length = len := by
  rw [bitsAt, List.length_map, List.length_reverse, List.length_range]

theorem bitsAt_add (n low a b : Nat) : bitsAt n low (a + b) = bitsAt n (low + a) b ++ bitsAt n low a := by
  rw [bitsAt, bitsAt, bitsAt, List.range_add, List.reverse_append, List.map_append, ← List.map_reverse,
    List.map_map]
  congr 2
  funext i
  rw [Function.comp_apply, Nat.add_assoc]

theorem bitsAt_succ (n len : Nat) : bitsAt n 0 (len + 1) = n.testBit len :: bitsAt n 0 len := by
  rw [bitsAt_add, Nat.zero_add]
  rfl

theorem bitsAt_congr {m n low low' len : Nat} (h : ∀ i < len, m.testBit (low + i) = n.testBit (low' + i)) :
    bitsAt m low len = bitsAt n low' len := by
  rw [bitsAt, bitsAt]
  apply List.map_congr_left
  intro i hi
  exact h i (List.mem_range.1 (List.mem_reverse.1 hi))

/-- A number in front of `len` bits of another. -/
theorem bitsAt_mul_add (a n : Nat) {b len : Nat} (hb : b < 2 ^ len) :
    bitsAt (2 ^ len * a + b) 0 (len + n) = bitsAt a 0 n ++ bitsAt b 0 len := by
  rw [bitsAt_add]
  congr 1
  · refine bitsAt_congr fun i hi => ?_
    rw [Nat.testBit_two_pow_mul_add a hb, if_neg (by omega)]
    congr 1
    omega
  · refine bitsAt_congr fun i hi => ?_
    rw [Nat.testBit_two_pow_mul_add a hb, if_pos (by omega)]

theorem bitsAt_ones (len : Nat) : bitsAt (2 ^ len - 1) 0 len = List.replicate len true := by
  rw [List.eq_replicate_iff, length_bitsAt]
  refine ⟨rfl, fun b hb => ?_⟩
  obtain ⟨i, hi, rfl⟩ := List.mem_map.1 hb
  have hi := List.mem_range.1 (List.mem_reverse.1 hi)
  rw [Nat.testBit_two_pow_sub_one, decide_eq_true (by omega)]

theorem bitsOf_eq (b : UInt8) : bitsOf b = bitsAt b.toNat 0 8 := by
  rw [bitsOf, bitsAt]
  congr 1
  funext i
  rw [Nat.zero_add]

theorem Code.toBits_eq (c : Code) : c.toBits = bitsAt c.value 0 c.length := by
  rw [toBits, bitsAt]
  congr 1
  funext i
  rw [Nat.zero_add]

theorem length_flatMap_bitsOf (l : Octets) : (l.flatMap bitsOf).length = 8 * l.length := by
  induction l with
  | nil => rfl
  | cons b l ih =>
    rw [List.flatMap_cons, List.length_append, ih, bitsOf_eq, length_bitsAt, List.length_cons]
    omega

/-! ## Writing -/

namespace Pending

/-- The bits that wait, highest first. -/
def bits (p : Pending) : List Bool := bitsAt p.word.toNat 0 p.count

/-- Less than an octet waits. -/
structure Valid (p : Pending) : Prop where
  count_lt : p.count < 8
  word_lt : p.word.toNat < 2 ^ p.count

theorem Valid.empty : Pending.empty.Valid := ⟨by decide, by decide⟩

/-- The bits that wait behind the octets of a string. -/
def behind (p : Pending) (data : Octets) : Pending := data.foldl (fun p b => (p.push (code b)).2) p

theorem toNat_onesBelow : ∀ n ≤ 8, (onesBelow n).toNat = 2 ^ n - 1 := by decide

theorem toNat_shiftLeft (w : UInt64) {n : Nat} (hn : n < 64) :
    (w <<< UInt64.ofNat n).toNat = w.toNat <<< n % 2 ^ 64 := by
  rw [UInt64.toNat_shiftLeft, UInt64.toNat_ofNat', Nat.mod_eq_of_lt (show n < 2 ^ 64 by omega),
    Nat.mod_eq_of_lt hn]

theorem toNat_shiftRight (w : UInt64) {n : Nat} (hn : n < 64) :
    (w >>> UInt64.ofNat n).toNat = w.toNat >>> n := by
  rw [UInt64.toNat_shiftRight, UInt64.toNat_ofNat', Nat.mod_eq_of_lt (show n < 2 ^ 64 by omega),
    Nat.mod_eq_of_lt hn]

/-- The octets above the low bits of a word are its bits there. -/
theorem bits_octetsAbove (word : UInt64) (low n : Nat) (h : 8 * n + low ≤ 64) :
    (octetsAbove word low n).flatMap bitsOf = bitsAt word.toNat low (8 * n) := by
  induction n with
  | zero => rfl
  | succ n ih =>
    have hhead : bitsOf (word >>> UInt64.ofNat (8 * n + low)).toUInt8 = bitsAt word.toNat (low + 8 * n) 8 := by
      rw [bitsOf_eq]
      refine bitsAt_congr fun i hi => ?_
      rw [UInt64.toNat_toUInt8, toNat_shiftRight word (by omega), Nat.testBit_mod_two_pow,
        Nat.testBit_shiftRight, decide_eq_true (show 0 + i < 8 by omega), Bool.true_and]
      congr 1
      omega
    rw [octetsAbove, List.flatMap_cons, hhead, ih (by omega), show 8 * (n + 1) = 8 * n + 8 by omega, bitsAt_add]

/-- A word in front of `k` bits of another, as long as both fit. -/
theorem toNat_shiftLeft_or {w v : UInt64} {n k : Nat} (hw : w.toNat < 2 ^ n) (hv : v.toNat < 2 ^ k)
    (h : n + k < 64) : (w <<< UInt64.ofNat k ||| v).toNat = 2 ^ k * w.toNat + v.toNat := by
  have hmul : 2 ^ k * w.toNat < 2 ^ 64 := by
    calc 2 ^ k * w.toNat < 2 ^ k * 2 ^ n := Nat.mul_lt_mul_of_pos_left hw (Nat.two_pow_pos k)
      _ = 2 ^ (k + n) := (Nat.pow_add 2 k n).symm
      _ ≤ 2 ^ 64 := Nat.pow_le_pow_right (by decide) (by omega)
  rw [UInt64.toNat_or, toNat_shiftLeft w (by omega), Nat.shiftLeft_eq, Nat.mul_comm, Nat.mod_eq_of_lt hmul,
    Nat.two_pow_add_eq_or_of_lt hv]

/-- The word with a code word behind the bits that wait. -/
theorem toNat_shifted {p : Pending} (h : p.Valid) {c : Code} (hlen : c.length ≤ 30) (hval : c.value < 2 ^ c.length) :
    (p.word <<< UInt64.ofNat c.length ||| UInt64.ofNat c.value).toNat = 2 ^ c.length * p.word.toNat + c.value := by
  have hcount := h.count_lt
  have hvalue : (UInt64.ofNat c.value).toNat = c.value :=
    UInt64.toNat_ofNat_of_lt' (hval.trans_le (Nat.pow_le_pow_right (by decide) (show c.length ≤ 64 by omega)))
  rw [toNat_shiftLeft_or h.word_lt (by rwa [hvalue]) (by omega), hvalue]

theorem bits_push {p : Pending} (h : p.Valid) {c : Code} (hlen : c.length ≤ 30) (hval : c.value < 2 ^ c.length) :
    (p.push c).1.flatMap bitsOf ++ (p.push c).2.bits = p.bits ++ c.toBits ∧ (p.push c).2.Valid := by
  have hcount := h.count_lt
  have hdiv := Nat.div_add_mod (p.count + c.length) 8
  have hlow : (p.count + c.length) % 8 < 8 := Nat.mod_lt _ (by decide)
  have hrest : (p.push c).2.word.toNat =
      (p.word <<< UInt64.ofNat c.length ||| UInt64.ofNat c.value).toNat % 2 ^ ((p.count + c.length) % 8) := by
    rw [push]
    dsimp only
    rw [UInt64.toNat_and, toNat_onesBelow _ hlow.le, Nat.and_two_pow_sub_one_eq_mod]
  refine ⟨?_, ⟨hlow, ?_⟩⟩
  · have hword : bitsAt (p.word <<< UInt64.ofNat c.length ||| UInt64.ofNat c.value).toNat 0 (c.length + p.count) =
        p.bits ++ c.toBits := by
      rw [toNat_shifted h hlen hval, bitsAt_mul_add _ _ hval, bits, c.toBits_eq]
    rw [← hword, bits, hrest, push]
    dsimp only
    rw [bits_octetsAbove _ _ _ (by omega), show c.length + p.count = (p.count + c.length) % 8
      + 8 * ((p.count + c.length) / 8) by omega, bitsAt_add, Nat.zero_add]
    congr 1
    refine bitsAt_congr fun i hi => ?_
    rw [Nat.testBit_mod_two_pow, decide_eq_true (show 0 + i < (p.count + c.length) % 8 by omega), Bool.true_and]
  · rw [hrest]
    exact Nat.mod_lt _ (Nat.two_pow_pos _)

/-- The last octet is the bits that wait, filled with ones. -/
theorem bits_finish {p : Pending} (h : p.Valid) :
    p.finish.flatMap bitsOf = p.bits ++ List.replicate ((8 - p.count) % 8) true := by
  have hcount := h.count_lt
  rw [finish]
  split
  · next h0 =>
    rw [bits, h0]
    rfl
  · next h0 =>
    have hones := toNat_onesBelow (8 - p.count) (Nat.sub_le 8 _)
    have hpos := Nat.two_pow_pos (8 - p.count)
    have hword := toNat_shiftLeft_or (v := onesBelow (8 - p.count)) (k := 8 - p.count) h.word_lt (by omega) (by omega)
    have hlt : 2 ^ (8 - p.count) * p.word.toNat + (2 ^ (8 - p.count) - 1) < 2 ^ 8 := by
      calc 2 ^ (8 - p.count) * p.word.toNat + (2 ^ (8 - p.count) - 1)
          < 2 ^ (8 - p.count) * p.word.toNat + 2 ^ (8 - p.count) := by omega
        _ = 2 ^ (8 - p.count) * (p.word.toNat + 1) := (Nat.mul_succ _ _).symm
        _ ≤ 2 ^ (8 - p.count) * 2 ^ p.count := Nat.mul_le_mul_left _ h.word_lt
        _ = 2 ^ 8 := by rw [← Nat.pow_add, Nat.sub_add_cancel hcount.le]
    rw [List.flatMap_singleton, bitsOf_eq, UInt64.toNat_toUInt8, hword, hones, Nat.mod_eq_of_lt hlt,
      show bitsAt _ 0 8 = bitsAt _ 0 (8 - p.count + p.count) by rw [Nat.sub_add_cancel hcount.le],
      bitsAt_mul_add _ _ (by omega), bits, bitsAt_ones, Nat.mod_eq_of_lt (show 8 - p.count < 8 by omega)]

end Pending

theorem Pending.Valid.behind {p : Pending} (h : p.Valid) (data : Octets) : (p.behind data).Valid := by
  induction data generalizing p with
  | nil => exact h
  | cons b data ih =>
    obtain ⟨-, hlen, hval⟩ := bounds_code b
    exact ih (Pending.bits_push h hlen hval).2

/-- The first part of a string leaves the octets that are whole, and bits that wait for the rest: together
the code words of that part. -/
theorem encodeFrom_append {p : Pending} (h : p.Valid) (front rest : Octets) :
    ∃ whole, encodeFrom p (front ++ rest) = whole ++ encodeFrom (p.behind front) rest ∧
      whole.flatMap bitsOf ++ (p.behind front).bits = p.bits ++ front.flatMap fun b => (code b).toBits := by
  induction front generalizing p with
  | nil => exact ⟨[], rfl, by simp [Pending.behind]⟩
  | cons b front ih =>
    obtain ⟨-, hlen, hval⟩ := bounds_code b
    obtain ⟨hbits, hvalid⟩ := Pending.bits_push h hlen hval
    obtain ⟨whole, he, hrest⟩ := ih hvalid
    refine ⟨(p.push (code b)).1 ++ whole, ?_, ?_⟩
    · rw [List.cons_append, encodeFrom, he, List.append_assoc]
      rfl
    · show ((p.push (code b)).1 ++ whole).flatMap bitsOf ++ ((p.push (code b)).2.behind front).bits = _
      rw [List.flatMap_append, List.append_assoc, hrest, ← List.append_assoc, hbits, List.flatMap_cons,
        List.append_assoc]

theorem bits_encodeFrom {p : Pending} (h : p.Valid) (data : Octets) :
    ∃ fill < 8, (encodeFrom p data).flatMap bitsOf =
      p.bits ++ data.flatMap (fun b => (code b).toBits) ++ List.replicate fill true := by
  obtain ⟨whole, he, hbits⟩ := encodeFrom_append h data []
  rw [List.append_nil] at he
  refine ⟨(8 - (p.behind data).count) % 8, Nat.mod_lt _ (by decide), ?_⟩
  rw [he, encodeFrom, List.flatMap_append, Pending.bits_finish (h.behind data), ← List.append_assoc, hbits]

/-- A coded string is the code words of its octets, filled up with ones. -/
theorem bits_encode (data : Octets) :
    ∃ fill < 8, (encode data).flatMap bitsOf =
      data.flatMap (fun b => (code b).toBits) ++ List.replicate fill true :=
  bits_encodeFrom Pending.Valid.empty data

theorem length_flatMap_toBits (data : Octets) :
    (data.flatMap fun b => (code b).toBits).length = data.foldr (fun b bits => (code b).length + bits) 0 := by
  induction data with
  | nil => rfl
  | cons b data ih =>
    rw [List.flatMap_cons, List.length_append, ih, Code.toBits_eq, length_bitsAt, List.foldr_cons]

theorem length_encode (data : Octets) : (encode data).length = encodedSize data := by
  obtain ⟨fill, hfill, hbits⟩ := bits_encode data
  have hlen := congrArg List.length hbits
  rw [length_flatMap_bitsOf, List.length_append, length_flatMap_toBits, List.length_replicate] at hlen
  rw [encodedSize]
  omega

/-! ## Reading -/

/-- The next bit of a code word. -/
theorem Code.push_shorten (c : Code) {k : Nat} (hk : k < c.length) :
    (c.shorten (k + 1)).push (c.value.testBit k) = c.shorten k := by
  rw [shorten, shorten, push, Nat.testBit_eq_decide_div_mod_eq, Nat.shiftRight_eq_div_pow,
    Nat.shiftRight_eq_div_pow, Nat.pow_succ, ← Nat.div_div_eq_div_mul]
  refine congrArg₂ Code.mk ?_ (by dsimp only; omega)
  dsimp only
  rcases Nat.mod_two_eq_zero_or_one (c.value / 2 ^ k) with h | h
  · rw [h, decide_eq_false (by decide), Bool.toNat_false]
    omega
  · rw [h, decide_eq_true rfl, Bool.toNat_true]
    omega

/-- The last bits of a code word lead to its octet. -/
theorem decodeBits_shorten (b : UInt8) {k : Nat} (hk : k < (code b).length) (rest : List Bool) :
    decodeBits ((code b).shorten (k + 1)) (bitsAt (code b).value 0 (k + 1) ++ rest) =
      (decodeBits .empty rest).map (b :: ·) := by
  induction k with
  | zero =>
    rw [bitsAt_succ, List.cons_append, decodeBits, Code.push_shorten _ hk, show (code b).shorten 0 = code b from rfl,
      symbol?_code]
    rfl
  | succ k ih =>
    rw [bitsAt_succ, List.cons_append, decodeBits, Code.push_shorten _ hk,
      symbol?_shorten (getElem?_code b) hk.le (Or.inl (Nat.succ_pos k))]
    exact ih (Nat.lt_of_succ_lt hk)

theorem decodeBits_code (b : UInt8) (rest : List Bool) :
    decodeBits .empty ((code b).toBits ++ rest) = (decodeBits .empty rest).map (b :: ·) := by
  obtain ⟨hpos, -, hval⟩ := bounds_code b
  obtain ⟨k, hk⟩ : ∃ k, (code b).length = k + 1 := ⟨(code b).length - 1, by omega⟩
  have hstart : (code b).shorten (k + 1) = .empty := by
    rw [Code.shorten, Nat.shiftRight_eq_div_pow, ← hk, Nat.div_eq_of_lt hval, Nat.sub_self]
    rfl
  have hall := decodeBits_shorten b (k := k) (by omega) rest
  rw [hstart] at hall
  rw [Code.toBits_eq, hk]
  exact hall

theorem shorten_endCode : ∀ j ≤ 7, endCode.shorten (30 - j) = ⟨2 ^ j - 1, j⟩ := by decide +kernel

/-- Fewer than eight ones are no octet, and may end a string. -/
theorem decodeBits_fill {j fill : Nat} (h : j + fill < 8) :
    decodeBits ⟨2 ^ j - 1, j⟩ (List.replicate fill true) = some [] := by
  have hpos := Nat.two_pow_pos j
  induction fill generalizing j with
  | zero =>
    rw [List.replicate_zero, decodeBits, if_pos]
    refine ⟨by omega, ?_⟩
    rw [Nat.one_shiftLeft]
    exact Nat.sub_add_cancel hpos
  | succ fill ih =>
    have hpush : (⟨2 ^ j - 1, j⟩ : Code).push true = ⟨2 ^ (j + 1) - 1, j + 1⟩ := by
      rw [Code.push, Bool.toNat_true, Nat.pow_succ]
      refine congrArg₂ Code.mk ?_ rfl
      dsimp only
      omega
    have hnone : symbol? ⟨2 ^ (j + 1) - 1, j + 1⟩ = none := by
      rw [← shorten_endCode (j + 1) (by omega)]
      exact symbol?_shorten getElem?_endCode (Nat.sub_le 30 _) (Or.inr rfl)
    rw [List.replicate_succ, decodeBits, hpush, hnone]
    exact ih (by omega) (Nat.two_pow_pos _)

theorem decode?_encode (data : Octets) : decode? (encode data) = some data := by
  obtain ⟨fill, hfill, hbits⟩ := bits_encode data
  rw [decode?, hbits]
  clear hbits
  induction data with
  | nil => exact decodeBits_fill (j := 0) (by omega)
  | cons b data ih =>
    rw [List.flatMap_cons, List.append_assoc, decodeBits_code, ih]
    rfl

end Qpack.Huffman

/-! ## Coding loses nothing -/

namespace Qpack.Huffman

/-- The word with a code word behind the bits that wait is the number that all these bits write, and they are
fewer than 64. -/
structure Pending.TakesUp (p : Pending) (c : Code) : Prop where
  exact : (p.word <<< UInt64.ofNat c.length ||| UInt64.ofNat c.value).toNat =
    2 ^ c.length * p.word.toNat + c.value
  fits : p.word.toNat < 2 ^ p.count ∧ c.value < 2 ^ c.length
  room : p.count + c.length < 64

theorem Pending.Valid.takesUp {p : Pending} (h : p.Valid) (b : UInt8) : p.TakesUp (code b) := by
  obtain ⟨-, hlen, hval⟩ := bounds_code b
  have hcount := h.count_lt
  exact ⟨toNat_shifted h hlen hval, ⟨h.word_lt, hval⟩, by omega⟩

/-- No code word is longer than 30 bits. -/
theorem length_flatMap_toBits_le (data : Octets) :
    (data.flatMap fun b => (code b).toBits).length ≤ 30 * data.length := by
  induction data with
  | nil => exact Nat.zero_le _
  | cons b data ih =>
    obtain ⟨-, hlen, -⟩ := bounds_code b
    rw [List.flatMap_cons, List.length_append, Code.toBits_eq, length_bitsAt, List.length_cons]
    omega

theorem encode_injective : Function.Injective encode := by
  intro d e h
  have hd := decode?_encode d
  rw [h, decode?_encode] at hd
  exact (Option.some.inj hd).symm

/-! ## Main statement -/

/-- A string that is coded behind other octets adds its code words and fewer than eight ones, and can be
found again. -/
structure Lossless (written data : Octets) : Prop where
  kept : (append written data).1.take written.length = written
  size : (append written data).1.length = written.length + encodedSize data
  count : (append written data).2 = encodedSize data
  /-- A 64-bit word can count the bits of any string that an address space has room for. -/
  counted : data.length < 2 ^ 59 → (data.flatMap fun b => (code b).toBits).length + 7 < 2 ^ 64
  bits : ∃ fill < 8, ((append written data).1.drop written.length).flatMap bitsOf =
    data.flatMap (fun b => (code b).toBits) ++ List.replicate fill true
  /-- At each octet no bit is lost: not of the code words before it, and not of its own. -/
  accumulated : ∀ front b rest, data = front ++ b :: rest →
    (Pending.empty.behind front).TakesUp (code b) ∧
      ∃ whole, (append written data).1 = written ++ whole ++ encodeFrom (Pending.empty.behind front) (b :: rest) ∧
        whole.flatMap bitsOf ++ (Pending.empty.behind front).bits = front.flatMap fun b => (code b).toBits
  decoded : decode? ((append written data).1.drop written.length) = some data
  distinct : ∀ other, (append written other).1 = (append written data).1 → other = data

theorem lossless_append (written data : Octets) : Lossless written data := by
  have hdrop : (append written data).1.drop written.length = encode data := List.drop_left
  refine {
    kept := List.take_left
    size := ?_
    count := length_encode data
    counted := fun hlen => ?_
    bits := ?_
    accumulated := ?_
    decoded := ?_
    distinct := ?_ }
  · rw [append, List.length_append, length_encode]
  · have hle := length_flatMap_toBits_le data
    omega
  · rw [hdrop]
    exact bits_encode data
  · rintro front b rest rfl
    obtain ⟨whole, he, hbits⟩ := encodeFrom_append Pending.Valid.empty front (b :: rest)
    refine ⟨(Pending.Valid.empty.behind front).takesUp b, whole, ?_, hbits⟩
    rw [append, encode, he, List.append_assoc]
  · rw [hdrop]
    exact decode?_encode data
  · intro other h
    exact encode_injective (List.append_cancel_left h)

end Qpack.Huffman
