import Qpack.Proofs.Wire.Huffman
import Qpack.Proofs.Wire.Integer
import Qpack.Wire.Literal

/-!
# String literals that were written

* `readAll_flatMap` : if each of several items is read again in front of whatever follows it, all of them are
  read again, and nothing is left;
* `head?_write` : the first octet has the flags above the one for the coding;
* `read_write` : what was written is read again, whatever follows it;
* `RoundTrips`, `roundTrips_write` : and its flag, its length and its size are right.
-/

/-! ## Items one after another -/

namespace Qpack
variable {α β : Type} {write : α → Octets} {sent : α → β} {read : Octets → Option (β × Octets)}
  {readAll : Octets → Option (List β)}

theorem readAll_flatMap (hnil : readAll [] = some [])
    (hcons : ∀ {data b rest}, read data = some (b, rest) → readAll data = (readAll rest).map (b :: ·))
    {l : List α} (h : ∀ x ∈ l, ∀ rest, read (write x ++ rest) = some (sent x, rest)) :
    readAll (l.flatMap write) = some (l.map sent) := by
  induction l with
  | nil => exact hnil
  | cons x l ih =>
    have hl := ih fun y hy => h y (List.mem_cons_of_mem x hy)
    rw [List.flatMap_cons, hcons (h x List.mem_cons_self _), hl, Option.map_some, List.map_cons]

end Qpack

/-! ## Literals -/

namespace Qpack.Literal
variable {width : Nat} {flags : UInt8}

/-- The flags with the one for the coding, as a literal has them. -/
def flagsOf (width : Nat) (flags : UInt8) (coded : Bool) : UInt8 :=
  if coded then flags ||| UInt8.ofNat (2 ^ width) else flags

/-- The octets behind the length of a literal. -/
def body (data : Octets) (coded : Bool) : Octets := if coded then Huffman.encode data else data

/-- Coded or not, a literal is the length of its body and the body. -/
theorem write_eq (width : Nat) (flags : UInt8) (data : Octets) (huffman : Bool) :
    write width flags data huffman =
      Integer.write width (flagsOf width flags (isCoded data huffman)) (body data (isCoded data huffman)).length
        ++ body data (isCoded data huffman) := by
  rw [write, flagsOf, body, Nat.one_shiftLeft]
  split
  · rw [Huffman.length_encode]
  · rfl

theorem toNat_flagsOf (hw : width ≤ 7) (hflags : flags.toNat % 2 ^ (width + 1) = 0) (coded : Bool) :
    (flagsOf width flags coded).toNat = flags.toNat + if coded then 2 ^ width else 0 := by
  rw [flagsOf]
  split
  · exact Integer.toNat_or_ofNat hflags (Nat.pow_lt_pow_right (by decide) (Nat.lt_succ_self width)) (by omega)
  · rfl

theorem flagsOf_mod (hw : width ≤ 7) (hflags : flags.toNat % 2 ^ (width + 1) = 0) (coded : Bool) :
    (flagsOf width flags coded).toNat % 2 ^ width = 0 := by
  have hlow : flags.toNat % 2 ^ width = 0 :=
    Nat.mod_eq_zero_of_dvd (Nat.dvd_trans (Nat.pow_dvd_pow 2 (Nat.le_succ width)) (Nat.dvd_of_mod_eq_zero hflags))
  rw [toNat_flagsOf hw hflags]
  split
  · rw [Nat.add_mod_right, hlow]
  · exact hlow

/-- The flag for the coding stands above the length. -/
theorem testBit_flagsOf (hw : width ≤ 7) (hflags : flags.toNat % 2 ^ (width + 1) = 0) (coded : Bool) :
    (flagsOf width flags coded).toNat.testBit width = coded := by
  have hpos := Nat.two_pow_pos width
  have hdvd := Nat.dvd_of_mod_eq_zero hflags
  obtain ⟨k, hk⟩ := hdvd
  rw [toNat_flagsOf hw hflags, hk, Nat.testBit_eq_decide_div_mod_eq, Nat.pow_succ, Nat.mul_assoc]
  split
  · next hc =>
    rw [hc, Nat.mul_add_div hpos, Nat.div_self hpos, Nat.add_comm, Nat.add_mul_mod_self_left]
    rfl
  · next hc =>
    rw [Bool.eq_false_iff.2 hc, Nat.add_zero, Nat.mul_div_cancel_left _ hpos, Nat.mul_mod_right]
    rfl

/-- It changes no flag above it. -/
theorem testBit_flagsOf_of_lt (hw : width ≤ 7) {i : Nat} (hi : width < i) (coded : Bool) :
    (flagsOf width flags coded).toNat.testBit i = flags.toNat.testBit i := by
  rw [flagsOf]
  split
  · exact Integer.testBit_or_ofNat (Nat.pow_lt_pow_right (by decide) (Nat.lt_succ_self width)) (by omega) hi
  · rfl

theorem head?_write (hw : width ≤ 7) (hflags : flags.toNat % 2 ^ (width + 1) = 0) (data : Octets)
    (huffman : Bool) (rest : Octets) :
    ∃ b, (write width flags data huffman ++ rest).head? = some b ∧ flags.toNat ≤ b.toNat ∧
      b.toNat < flags.toNat + 2 ^ (width + 1) ∧ ∀ i, width < i → b.toNat.testBit i = flags.toNat.testBit i := by
  rw [write_eq, List.append_assoc]
  obtain ⟨b, hb, hle, hlt, hbits⟩ := Integer.head?_write (by omega) (flagsOf_mod hw hflags (isCoded data huffman))
    (body data (isCoded data huffman)).length (body data (isCoded data huffman) ++ rest)
  have hto := toNat_flagsOf hw hflags (isCoded data huffman)
  have hpow : 2 ^ (width + 1) = 2 ^ width + 2 ^ width := by
    rw [Nat.pow_succ]
    omega
  refine ⟨b, hb, ?_, ?_, fun i hi => ?_⟩
  · omega
  · split at hto <;> omega
  · rw [hbits i hi.le, testBit_flagsOf_of_lt hw hi]

/-- Coding is for strings that it makes shorter. -/
theorem length_body_le_length (data : Octets) (huffman : Bool) :
    (body data (isCoded data huffman)).length ≤ data.length := by
  rw [body]
  split
  · next hc =>
    have hshort : Huffman.encodedSize data < data.length := of_decide_eq_true (Bool.and_eq_true _ _ ▸ hc).2
    rw [Huffman.length_encode]
    exact hshort.le
  · exact Nat.le_refl _

theorem length_body_le {data : Octets} (h : data.length ≤ Integer.maximum) (huffman : Bool) :
    (body data (isCoded data huffman)).length ≤ Integer.maximum :=
  (length_body_le_length data huffman).trans h

/-- A literal that was written is read again, and what follows it is left. -/
theorem read_write (hpos : 1 ≤ width) (hw : width ≤ 7) (hflags : flags.toNat % 2 ^ (width + 1) = 0)
    {data : Octets} (hlen : data.length ≤ Integer.maximum) (huffman : Bool) (rest : Octets) :
    read width (write width flags data huffman ++ rest) = some (⟨data, isCoded data huffman⟩, rest) := by
  rw [write_eq, List.append_assoc]
  obtain ⟨b, hb, -, -, hbits⟩ := Integer.head?_write (by omega) (flagsOf_mod hw hflags (isCoded data huffman))
    (body data (isCoded data huffman)).length (body data (isCoded data huffman) ++ rest)
  have hread := Integer.read_write hpos (show width ≤ 8 by omega) (flagsOf_mod hw hflags (isCoded data huffman))
    (length_body_le hlen huffman) (body data (isCoded data huffman) ++ rest)
  rw [read, hread]
  dsimp only
  rw [if_neg (by rw [List.length_append]; omega), List.headD_eq_head?_getD, hb, Option.getD_some,
    hbits width (Nat.le_refl width), testBit_flagsOf hw hflags, List.take_left, List.drop_left, body]
  split
  · next hc => rw [Huffman.decode?_encode, Option.map_some, hc]
  · next hc => rw [Bool.eq_false_iff.2 hc]

/-! ## Main statement -/

theorem isCoded_eq (data : Octets) (huffman : Bool) :
    isCoded data huffman = (huffman && decide ((Huffman.encode data).length < data.length)) := by
  rw [isCoded, Huffman.length_encode]

theorem length_write (width : Nat) (flags : UInt8) (data : Octets) (huffman : Bool) :
    (write width flags data huffman).length =
      (Integer.write width (flagsOf width flags (isCoded data huffman))
        (body data (isCoded data huffman)).length).length + (body data (isCoded data huffman)).length := by
  rw [write_eq, List.length_append]

/-- A literal without coding is the longest. -/
theorem length_write_le (width : Nat) (flags : UInt8) (data : Octets) (huffman : Bool) :
    (write width flags data huffman).length ≤ (write width flags data false).length := by
  have hbody := length_body_le_length data huffman
  rw [length_write, length_write width flags data false]
  exact Nat.add_le_add (Integer.length_write_mono width _ _ hbody) hbody

/-- A string that is written as a literal is found again by its flag and its length, and takes no more octets
than without coding. -/
structure RoundTrips (width : Nat) (flags : UInt8) (data : Octets) (huffman : Bool) : Prop where
  found : ∀ rest, read width (write width flags data huffman ++ rest) = some (⟨data, isCoded data huffman⟩, rest)
  /-- The flag says that coding was allowed and is strictly shorter. The flags above it are kept. -/
  flag : ∃ b tail, write width flags data huffman = b :: tail ∧
    b.toNat.testBit width = (huffman && decide ((Huffman.encode data).length < data.length)) ∧
    ∀ i, width < i → b.toNat.testBit i = flags.toNat.testBit i
  /-- The length that is read is that of all behind it: the coded string if the flag is set, or the string. -/
  declared : ∃ head, write width flags data huffman = head ++ body data (isCoded data huffman) ∧
    ∀ rest, Integer.decode width (head ++ rest) = .ok ((body data (isCoded data huffman)).length, head.length)
  shortest : (write width flags data huffman).length ≤ (write width flags data false).length

theorem roundTrips_write (hpos : 1 ≤ width) (hw : width ≤ 7) (hflags : flags.toNat % 2 ^ (width + 1) = 0)
    {data : Octets} (hlen : data.length < 2 ^ 62) (huffman : Bool) : RoundTrips width flags data huffman where
  found rest := read_write hpos hw hflags (Nat.le_pred_of_lt hlen) huffman rest
  flag := by
    obtain ⟨x, tail, hx, he⟩ := Integer.write_head width (flagsOf width flags (isCoded data huffman))
      (body data (isCoded data huffman)).length
    refine ⟨_, tail ++ body data (isCoded data huffman), by rw [write_eq, he, List.cons_append], ?_, fun i hi => ?_⟩
    · rw [Integer.testBit_or_ofNat hx (by omega) (Nat.le_refl width), testBit_flagsOf hw hflags, isCoded_eq]
    · rw [Integer.testBit_or_ofNat hx (by omega) hi.le, testBit_flagsOf_of_lt hw hi]
  declared := by
    refine ⟨_, write_eq width flags data huffman, fun rest => ?_⟩
    exact Integer.decode_write hpos (by omega) (flagsOf_mod hw hflags _)
      (length_body_le (Nat.le_pred_of_lt hlen) huffman) rest
  shortest := length_write_le width flags data huffman

/-- Coded, fifteen octets are twelve. Three bits cannot hold that length, and a group follows them. -/
theorem roundTrips_write_host :
    write 3 0x20 (.ofText "www.example.com") true =
        [0x2F, 0x05, 0xF1, 0xE3, 0xC2, 0xE5, 0xF2, 0x3A, 0x6B, 0xA0, 0xAB, 0x90, 0xF4, 0xFF] ∧
      RoundTrips 3 0x20 (.ofText "www.example.com") true :=
  ⟨by decide +kernel, roundTrips_write (by decide) (by decide) (by decide) (by decide +kernel) true⟩

end Qpack.Literal
