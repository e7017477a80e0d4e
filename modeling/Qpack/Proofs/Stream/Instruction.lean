import Qpack.Proofs.Wire.Literal
import Qpack.Stream.Instruction

/-!
# Instructions that were written

* `Instruction.Fits` : all numbers and lengths of an instruction have at most 62 bits;
* `read_insertNamed`, `read_insertLiteral`, `read_setCapacity`, `read_duplicate` : the four forms of an
  instruction, by the first octet;
* `read_write`, `readAll_writeAll` : an instruction that was written is read again, and so are several.
-/

namespace Qpack.Instruction

/-- All numbers and lengths of an instruction have at most 62 bits. -/
def Fits : Instruction → Prop
  | setCapacity capacity => capacity ≤ Integer.maximum
  | insertNamed (.static index) _ value => index ≤ Integer.maximum ∧ value.length ≤ Integer.maximum
  | insertNamed (.relative index) _ value => index ≤ Integer.maximum ∧ value.length ≤ Integer.maximum
  | insertLiteral _ name _ value => name.length ≤ Integer.maximum ∧ value.length ≤ Integer.maximum
  | duplicate index => index ≤ Integer.maximum

instance : DecidablePred Fits
  | setCapacity _ => inferInstanceAs (Decidable (_ ≤ _))
  | insertNamed (.static _) _ _ => inferInstanceAs (Decidable (_ ∧ _))
  | insertNamed (.relative _) _ _ => inferInstanceAs (Decidable (_ ∧ _))
  | insertLiteral _ _ _ _ => inferInstanceAs (Decidable (_ ∧ _))
  | duplicate _ => inferInstanceAs (Decidable (_ ≤ _))

/-! ## The four forms -/

section Forms
variable {index : Nat} {data mid rest : Octets} {b : UInt8} {name value : Literal}

theorem read_insertNamed (hb : data.head? = some b) (h : 128 ≤ b.toNat)
    (hi : Integer.read 6 data = .ok (index, mid)) (hv : Literal.read 7 mid = some (value, rest)) :
    read data = some (insertNamed (if b.toNat.testBit 6 then .static index else .relative index) value.coded
      value.text, rest) := by
  rw [read, hb]
  show (if 128 ≤ b.toNat then _ else _) = _
  rw [if_pos h, hi]
  show (Literal.read 7 mid).bind _ = _
  rw [hv]
  rfl

theorem read_insertLiteral (hb : data.head? = some b) (h : 64 ≤ b.toNat) (h' : b.toNat < 128)
    (hn : Literal.read 5 data = some (name, mid)) (hv : Literal.read 7 mid = some (value, rest)) :
    read data = some (insertLiteral name.coded name.text value.coded value.text, rest) := by
  rw [read, hb]
  show (if 128 ≤ b.toNat then _ else _) = _
  rw [if_neg (Nat.not_le.2 h'), if_pos h, hn]
  show (Literal.read 7 mid).bind _ = _
  rw [hv]
  rfl

theorem read_setCapacity (hb : data.head? = some b) (h : 32 ≤ b.toNat) (h' : b.toNat < 64)
    (hi : Integer.read 5 data = .ok (index, rest)) : read data = some (setCapacity index, rest) := by
  rw [read, hb]
  show (if 128 ≤ b.toNat then _ else _) = _
  rw [if_neg (by omega), if_neg (by omega), if_pos h, hi]
  rfl

theorem read_duplicate (hb : data.head? = some b) (h : b.toNat < 32)
    (hi : Integer.read 5 data = .ok (index, rest)) : read data = some (duplicate index, rest) := by
  rw [read, hb]
  show (if 128 ≤ b.toNat then _ else _) = _
  rw [if_neg (by omega), if_neg (by omega), if_neg (by omega), hi]
  rfl

/-! ## Reading what was written -/

/-- An index below flags that say which table it is for, and the value behind it. -/
theorem read_insertNamed_write {flags : UInt8} (hflags : flags.toNat % 2 ^ 6 = 0) (hle : 128 ≤ flags.toNat)
    (hi : index ≤ Integer.maximum) {value : Octets} (hv : value.length ≤ Integer.maximum) (huffman : Bool)
    (rest : Octets) :
    read (Integer.write 6 flags index ++ (Literal.write 7 0x00 value huffman ++ rest)) =
      some (insertNamed (if flags.toNat.testBit 6 then .static index else .relative index)
        (Literal.isCoded value huffman) value, rest) := by
  have hvalue := Literal.read_write (by decide : 1 ≤ 7) (by decide) (by decide : (0x00 : UInt8).toNat % 2 ^ 8 = 0)
    hv huffman rest
  have hindex := Integer.read_write (by decide : 1 ≤ 6) (by decide) hflags hi
    (Literal.write 7 0x00 value huffman ++ rest)
  obtain ⟨b, hb, hle', -, hbits⟩ := Integer.head?_write (by decide : 6 ≤ 8) hflags index
    (Literal.write 7 0x00 value huffman ++ rest)
  rw [read_insertNamed hb (hle.trans hle') hindex hvalue, hbits 6 (Nat.le_refl 6)]

theorem read_insertLiteral_write {name value : Octets} (hn : name.length ≤ Integer.maximum)
    (hv : value.length ≤ Integer.maximum) (nameHuffman valueHuffman : Bool) (rest : Octets) :
    read (Literal.write 5 0x40 name nameHuffman ++ (Literal.write 7 0x00 value valueHuffman ++ rest)) =
      some (insertLiteral (Literal.isCoded name nameHuffman) name (Literal.isCoded value valueHuffman) value,
        rest) := by
  have hflags : (0x40 : UInt8).toNat % 2 ^ (5 + 1) = 0 := by decide
  have hvalue := Literal.read_write (by decide : 1 ≤ 7) (by decide) (by decide : (0x00 : UInt8).toNat % 2 ^ 8 = 0)
    hv valueHuffman rest
  have hname := Literal.read_write (by decide : 1 ≤ 5) (by decide) hflags hn nameHuffman
    (Literal.write 7 0x00 value valueHuffman ++ rest)
  obtain ⟨b, hb, hle, hlt, -⟩ := Literal.head?_write (by decide : 5 ≤ 7) hflags name nameHuffman
    (Literal.write 7 0x00 value valueHuffman ++ rest)
  exact read_insertLiteral hb hle hlt hname hvalue

end Forms

/-- An instruction that was written is read again, up to the flags for the coding, and what follows it is
left. -/
theorem read_write {i : Instruction} (h : i.Fits) (rest : Octets) :
    read (i.write ++ rest) = some (i.sent, rest) := by
  rcases i with capacity | ⟨⟨index⟩ | ⟨index⟩, huffman, value⟩ | ⟨nameHuffman, name, valueHuffman, value⟩ | index
  · have hflags : (0x20 : UInt8).toNat % 2 ^ 5 = 0 := by decide
    have hcapacity := Integer.read_write (by decide : 1 ≤ 5) (by decide) hflags h rest
    obtain ⟨b, hb, hle, hlt, -⟩ := Integer.head?_write (by decide : 5 ≤ 8) hflags capacity rest
    exact read_setCapacity hb hle hlt hcapacity
  · rw [write, List.append_assoc]
    exact read_insertNamed_write (by decide) (by decide) h.1 h.2 huffman rest
  · rw [write, List.append_assoc]
    exact read_insertNamed_write (by decide) (by decide) h.1 h.2 huffman rest
  · rw [write, List.append_assoc]
    exact read_insertLiteral_write h.1 h.2 nameHuffman valueHuffman rest
  · have hflags : (0x00 : UInt8).toNat % 2 ^ 5 = 0 := by decide
    have hindex := Integer.read_write (by decide : 1 ≤ 5) (by decide) hflags h rest
    obtain ⟨b, hb, -, hlt, -⟩ := Integer.head?_write (by decide : 5 ≤ 8) hflags index rest
    exact read_duplicate hb hlt hindex

/-! ## Several instructions -/

theorem readAll_of_read {data rest : Octets} {i : Instruction} (h : read data = some (i, rest)) :
    readAll data = (readAll rest).map (i :: ·) := by
  have hne : data.isEmpty = false := by
    rw [List.isEmpty_eq_false_iff_exists_mem, ← List.length_pos_iff_exists_mem]
    exact Nat.zero_lt_of_lt (length_of_read h)
  rw [readAll, hne, if_neg Bool.false_ne_true]
  split
  · next i' rest' h' =>
    rw [h] at h'
    obtain ⟨rfl, rfl⟩ := Prod.mk.inj (Option.some.inj h')
    rfl
  · next h' =>
    rw [h] at h'
    cases h'

/-- Instructions that were written one after another are read again, up to the flags for the coding, and
nothing is left. -/
theorem readAll_writeAll {list : List Instruction} (h : ∀ i ∈ list, i.Fits) :
    readAll (writeAll list) = some (list.map sent) := by
  apply readAll_flatMap
  · rw [readAll]
    rfl
  · exact readAll_of_read
  · intro i hi rest
    exact read_write (h i hi) rest

end Qpack.Instruction
