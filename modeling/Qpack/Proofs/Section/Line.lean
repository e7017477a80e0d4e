import Qpack.Proofs.Section.Head
import Qpack.Proofs.Wire.Literal
import Qpack.Section.Line

/-!
# Lines and sections that were written

* `read_indexed`, `read_named`, `read_literal`, `read_indexedAhead`, `read_namedAhead` : the five forms of
  a line, by the first octet;
* `FieldLine.Fits` : all numbers and lengths of a line have at most 62 bits;
* `read_write`, `readAll_write` : a line that was written is read again, and so are several;
* `FieldLine.Bounded`, `Bounded.fits` : if all indices and lengths have at most 62 bits, so have the distances
  from any base;
* `WireSection.read?_write` : a section that was written is read again.
-/

namespace Qpack

/-- The distances of an entry from the base have at most 62 bits. -/
def EntryRef.Fits (base : Nat) : EntryRef → Prop
  | .static index => index ≤ Integer.maximum
  | .dynamic index => base - 1 - index ≤ Integer.maximum ∧ index - base ≤ Integer.maximum

namespace FieldLine

/-- All numbers and lengths of a line have at most 62 bits. -/
def Fits (base : Nat) : FieldLine → Prop
  | .indexed entry => entry.Fits base
  | .named entry value _ _ => entry.Fits base ∧ value.length ≤ Integer.maximum
  | .literal name value _ _ => name.length ≤ Integer.maximum ∧ value.length ≤ Integer.maximum

/-! ## The five forms -/

section Forms
variable {base index : Nat} {data mid rest : Octets} {b : UInt8} {entry : EntryRef} {name value : Literal}

theorem read_indexed (hb : data.head? = some b) (h : 128 ≤ b.toNat)
    (hi : Integer.read 6 data = .ok (index, rest)) (he : entryAt? base (b.toNat.testBit 6) index = some entry) :
    read base data = some (indexed entry, rest) := by
  rw [read, hb]
  show (if 128 ≤ b.toNat then _ else _) = _
  rw [if_pos h, hi]
  show (entryAt? base (b.toNat.testBit 6) index).bind _ = _
  rw [he]
  rfl

theorem read_named (hb : data.head? = some b) (h : 64 ≤ b.toNat) (h' : b.toNat < 128)
    (hi : Integer.read 4 data = .ok (index, mid)) (he : entryAt? base (b.toNat.testBit 4) index = some entry)
    (hv : Literal.read 7 mid = some (value, rest)) :
    read base data = some (named entry value.text (b.toNat.testBit 5) value.coded, rest) := by
  rw [read, hb]
  show (if 128 ≤ b.toNat then _ else _) = _
  rw [if_neg (Nat.not_le.2 h'), if_pos h, hi]
  show (entryAt? base (b.toNat.testBit 4) index).bind _ = _
  rw [he]
  show (Literal.read 7 mid).bind _ = _
  rw [hv]
  rfl

theorem read_literal (hb : data.head? = some b) (h : 32 ≤ b.toNat) (h' : b.toNat < 64)
    (hn : Literal.read 3 data = some (name, mid)) (hv : Literal.read 7 mid = some (value, rest)) :
    read base data =
      some (literal name.text value.text (b.toNat.testBit 4) (name.coded || value.coded), rest) := by
  rw [read, hb]
  show (if 128 ≤ b.toNat then _ else _) = _
  rw [if_neg (by omega), if_neg (by omega), if_pos h, hn]
  show (Literal.read 7 mid).bind _ = _
  rw [hv]
  rfl

theorem read_indexedAhead (hb : data.head? = some b) (h : 16 ≤ b.toNat) (h' : b.toNat < 32)
    (hi : Integer.read 4 data = .ok (index, rest)) :
    read base data = some (indexed (.dynamic (base + index)), rest) := by
  rw [read, hb]
  show (if 128 ≤ b.toNat then _ else _) = _
  rw [if_neg (by omega), if_neg (by omega), if_neg (by omega), if_pos h, hi]
  rfl

theorem read_namedAhead (hb : data.head? = some b) (h : b.toNat < 16)
    (hi : Integer.read 3 data = .ok (index, mid)) (hv : Literal.read 7 mid = some (value, rest)) :
    read base data =
      some (named (.dynamic (base + index)) value.text (b.toNat.testBit 3) value.coded, rest) := by
  rw [read, hb]
  show (if 128 ≤ b.toNat then _ else _) = _
  rw [if_neg (by omega), if_neg (by omega), if_neg (by omega), if_neg (by omega), hi]
  show (Literal.read 7 mid).bind _ = _
  rw [hv]
  rfl

/-! ## Reading what was written -/

theorem entryAt?_back (h : index < base) : entryAt? base false (base - 1 - index) = some (.dynamic index) := by
  rw [entryAt?, if_neg Bool.false_ne_true, if_pos (by omega), show base - 1 - (base - 1 - index) = index by omega]

/-- An index below flags that say which table it is for. -/
theorem read_indexed_write {flags : UInt8} (hflags : flags.toNat % 2 ^ 6 = 0) (hle : 128 ≤ flags.toNat)
    (hi : index ≤ Integer.maximum) (he : entryAt? base (flags.toNat.testBit 6) index = some entry) (rest : Octets) :
    read base (Integer.write 6 flags index ++ rest) = some (indexed entry, rest) := by
  have hread := Integer.read_write (by decide : 1 ≤ 6) (by decide) hflags hi rest
  obtain ⟨b, hb, hle', -, hbits⟩ := Integer.head?_write (by decide : 6 ≤ 8) hflags index rest
  refine read_indexed hb (Nat.le_trans hle hle') hread ?_
  rw [hbits 6 (Nat.le_refl 6), he]

theorem read_write_indexed (h : entry.Fits base) (rest : Octets) :
    read base ((indexed entry).write base ++ rest) = some (indexed entry, rest) := by
  cases entry with
  | static index => exact read_indexed_write (by decide) (by decide) h rfl rest
  | dynamic index =>
    rw [write]
    split
    · next hlt => exact read_indexed_write (by decide) (by decide) h.1 (entryAt?_back hlt) rest
    · next hge =>
      have hflags : (0x10 : UInt8).toNat % 2 ^ 4 = 0 := by decide
      have hi := Integer.read_write (by decide : 1 ≤ 4) (by decide) hflags h.2 rest
      obtain ⟨b, hb, hle, hlt, -⟩ := Integer.head?_write (by decide : 4 ≤ 8) hflags (index - base) rest
      rw [read_indexedAhead hb hle hlt hi, Nat.add_sub_cancel' (Nat.le_of_not_lt hge)]

/-- The value behind an index, below flags that say which table the index is for and who may index the
field. -/
theorem read_named_write {flags : UInt8} {never : Bool}
    (hflags : flags.toNat % 2 ^ 4 = 0 ∧ 64 ≤ flags.toNat ∧ flags.toNat + 2 ^ 4 ≤ 128 ∧ flags.toNat.testBit 5 = never)
    (hi : index ≤ Integer.maximum) (he : entryAt? base (flags.toNat.testBit 4) index = some entry)
    {value : Octets} (hv : value.length ≤ Integer.maximum) (huffman : Bool) (rest : Octets) :
    read base (Integer.write 4 flags index ++ (Literal.write 7 0x00 value huffman ++ rest)) =
      some (named entry value never (Literal.isCoded value huffman), rest) := by
  obtain ⟨hlow, hle, hlt, hnever⟩ := hflags
  have hvalue := Literal.read_write (by decide : 1 ≤ 7) (by decide) (by decide : (0x00 : UInt8).toNat % 2 ^ 8 = 0)
    hv huffman rest
  have hread := Integer.read_write (by decide : 1 ≤ 4) (by decide) hlow hi
    (Literal.write 7 0x00 value huffman ++ rest)
  obtain ⟨b, hb, hle', hlt', hbits⟩ := Integer.head?_write (by decide : 4 ≤ 8) hlow index
    (Literal.write 7 0x00 value huffman ++ rest)
  rw [← hbits 4 (Nat.le_refl 4)] at he
  rw [read_named hb (hle.trans hle') (hlt'.trans_le hlt) hread he hvalue, hbits 5 (by decide), hnever]

theorem read_namedAhead_write {flags : UInt8} {never : Bool}
    (hflags : flags.toNat % 2 ^ 3 = 0 ∧ flags.toNat + 2 ^ 3 ≤ 16 ∧ flags.toNat.testBit 3 = never)
    (hi : index ≤ Integer.maximum) {value : Octets} (hv : value.length ≤ Integer.maximum) (huffman : Bool)
    (rest : Octets) :
    read base (Integer.write 3 flags index ++ (Literal.write 7 0x00 value huffman ++ rest)) =
      some (named (.dynamic (base + index)) value never (Literal.isCoded value huffman), rest) := by
  obtain ⟨hlow, hlt, hnever⟩ := hflags
  have hvalue := Literal.read_write (by decide : 1 ≤ 7) (by decide) (by decide : (0x00 : UInt8).toNat % 2 ^ 8 = 0)
    hv huffman rest
  have hread := Integer.read_write (by decide : 1 ≤ 3) (by decide) hlow hi
    (Literal.write 7 0x00 value huffman ++ rest)
  obtain ⟨b, hb, -, hlt', hbits⟩ := Integer.head?_write (by decide : 3 ≤ 8) hlow index
    (Literal.write 7 0x00 value huffman ++ rest)
  rw [read_namedAhead hb (hlt'.trans_le hlt) hread hvalue, hbits 3 (Nat.le_refl 3), hnever]

theorem read_write_named (h : entry.Fits base) {value : Octets} (hv : value.length ≤ Integer.maximum)
    (never huffman : Bool) (rest : Octets) :
    read base ((named entry value never huffman).write base ++ rest) =
      some (named entry value never (Literal.isCoded value huffman), rest) := by
  cases entry with
  | static index =>
    have he : entryAt? base ((0x50 ||| flag never 0x20 : UInt8).toNat.testBit 4) index = some (.static index) := by
      cases never <;> rfl
    rw [write, List.append_assoc]
    exact read_named_write (by cases never <;> decide) h he hv huffman rest
  | dynamic index =>
    rw [write, List.append_assoc]
    split
    · next hlt =>
      have hback : (0x40 ||| flag never 0x20 : UInt8).toNat.testBit 4 = false := by cases never <;> rfl
      refine read_named_write (by cases never <;> decide) h.1 ?_ hv huffman rest
      rw [hback, entryAt?_back hlt]
    · next hge =>
      have hflags : (flag never 0x08).toNat % 2 ^ 3 = 0 ∧ (flag never 0x08).toNat + 2 ^ 3 ≤ 16 ∧
          (flag never 0x08).toNat.testBit 3 = never := by
        cases never <;> decide
      rw [read_namedAhead_write hflags h.2 hv huffman rest, Nat.add_sub_cancel' (Nat.le_of_not_lt hge)]

theorem read_write_literal {name value : Octets} (hn : name.length ≤ Integer.maximum)
    (hv : value.length ≤ Integer.maximum) (never huffman : Bool) (rest : Octets) :
    read base ((literal name value never huffman).write base ++ rest) =
      some (literal name value never (Literal.isCoded name huffman || Literal.isCoded value huffman), rest) := by
  have hflags : (0x20 ||| flag never 0x10 : UInt8).toNat % 2 ^ (3 + 1) = 0 ∧
      32 ≤ (0x20 ||| flag never 0x10 : UInt8).toNat ∧
      (0x20 ||| flag never 0x10 : UInt8).toNat + 2 ^ (3 + 1) ≤ 64 ∧
      (0x20 ||| flag never 0x10 : UInt8).toNat.testBit 4 = never := by
    cases never <;> decide
  obtain ⟨hlow, hle, hlt, hnever⟩ := hflags
  have hvalue := Literal.read_write (by decide : 1 ≤ 7) (by decide) (by decide : (0x00 : UInt8).toNat % 2 ^ 8 = 0)
    hv huffman rest
  have hname := Literal.read_write (by decide : 1 ≤ 3) (by decide) hlow hn huffman
    (Literal.write 7 0x00 value huffman ++ rest)
  obtain ⟨b, hb, hle', hlt', hbits⟩ := Literal.head?_write (by decide : 3 ≤ 7) hlow name huffman
    (Literal.write 7 0x00 value huffman ++ rest)
  rw [write, List.append_assoc, read_literal hb (hle.trans hle') (hlt'.trans_le hlt) hname hvalue,
    hbits 4 (by decide), hnever]

end Forms

/-- A line that was written is read again, up to the flag for the coding, and what follows it is left.
-/
theorem read_write {base : Nat} {l : FieldLine} (h : l.Fits base) (rest : Octets) :
    read base (l.write base ++ rest) = some (l.sent, rest) := by
  cases l with
  | indexed entry => exact read_write_indexed h rest
  | named entry value never huffman => exact read_write_named h.1 h.2 never huffman rest
  | literal name value never huffman => exact read_write_literal h.1 h.2 never huffman rest

theorem readAll_of_read {base : Nat} {data rest : Octets} {l : FieldLine} (h : read base data = some (l, rest)) :
    readAll base data = (readAll base rest).map (l :: ·) := by
  have hne : data.isEmpty = false := by
    rw [List.isEmpty_eq_false_iff_exists_mem, ← List.length_pos_iff_exists_mem]
    exact Nat.zero_lt_of_lt (length_of_read h)
  rw [readAll, hne, if_neg Bool.false_ne_true]
  split
  · next l' rest' h' =>
    rw [h] at h'
    obtain ⟨rfl, rfl⟩ := Prod.mk.inj (Option.some.inj h')
    rfl
  · next h' =>
    rw [h] at h'
    cases h'

theorem readAll_write {base : Nat} {lines : List FieldLine} (h : ∀ l ∈ lines, l.Fits base) :
    readAll base (lines.flatMap (write base)) = some (lines.map sent) := by
  apply readAll_flatMap
  · rw [readAll]
    rfl
  · exact readAll_of_read
  · intro l hl rest
    exact read_write (h l hl) rest

end FieldLine
end Qpack

/-! ## Whole sections -/

namespace Qpack

/-- The index has at most 62 bits. -/
def EntryRef.Bounded : EntryRef → Prop
  | .static index => index ≤ Integer.maximum
  | .dynamic index => index ≤ Integer.maximum

namespace FieldLine

/-- All indices and lengths of a line have at most 62 bits. -/
def Bounded : FieldLine → Prop
  | .indexed entry => entry.Bounded
  | .named entry value _ _ => entry.Bounded ∧ value.length ≤ Integer.maximum
  | .literal name value _ _ => name.length ≤ Integer.maximum ∧ value.length ≤ Integer.maximum

instance (entry : EntryRef) : Decidable entry.Bounded :=
  match entry with
  | .static _ => inferInstanceAs (Decidable (_ ≤ _))
  | .dynamic _ => inferInstanceAs (Decidable (_ ≤ _))

instance : DecidablePred Bounded
  | .indexed entry => inferInstanceAs (Decidable entry.Bounded)
  | .named _ _ _ _ => inferInstanceAs (Decidable (_ ∧ _))
  | .literal _ _ _ _ => inferInstanceAs (Decidable (_ ∧ _))

variable {base : Nat}

theorem fits_entry (hb : base ≤ Integer.maximum) {entry : EntryRef} (h : entry.Bounded) : entry.Fits base := by
  cases entry with
  | static index => exact h
  | dynamic index =>
    unfold EntryRef.Bounded at h
    refine ⟨?_, ?_⟩
    · omega
    · omega

/-- On either side of the base, the distance is not more than the larger of the two. -/
theorem Bounded.fits (hb : base ≤ Integer.maximum) {l : FieldLine} (h : l.Bounded) : l.Fits base := by
  cases l with
  | indexed entry => exact fits_entry hb h
  | named entry value never huffman => exact ⟨fits_entry hb h.1, h.2⟩
  | literal name value never huffman => exact h

end FieldLine

namespace WireSection

/-- A section that was written is read again: the wrapped count, the sign and the distance of the base, the
base itself, and the lines up to the flags for the coding. Nothing is left. -/
theorem read?_write {maxCapacity : Nat} (hmax : maxCapacity < 2 ^ 64) {h : SectionHead}
    (hbase : h.base ≤ Integer.maximum) {lines : List FieldLine} (hlines : ∀ l ∈ lines, l.Bounded) :
    read? h.requiredInsertCount (h.write maxCapacity ++ lines.flatMap (FieldLine.write h.base)) =
      some {
        head := {
          wrapped := InsertCount.wrap maxCapacity h.requiredInsertCount
          sign := decide (h.base < h.requiredInsertCount)
          deltaBase :=
            if h.base < h.requiredInsertCount then h.requiredInsertCount - h.base - 1
            else h.base - h.requiredInsertCount }
        base := h.base
        lines := lines.map FieldLine.sent } := by
  have hhead : WireHead.read (h.write maxCapacity ++ lines.flatMap (FieldLine.write h.base)) = _ :=
    WireHead.read_write (InsertCount.wrap_le_of_lt hmax _) _
  have hall := FieldLine.readAll_write fun l hl => (hlines l hl).fits hbase
  rw [← SectionHead.toWire_eq, read?, hhead]
  show ((h.toWire maxCapacity).base? h.requiredInsertCount).bind _ = _
  rw [SectionHead.base?_toWire]
  show (FieldLine.readAll h.base _).bind _ = _
  rw [hall]
  rfl

/-- Lines of every form, with indices on both sides of the base `100`. -/
def bothSides : List FieldLine :=
  [.indexed (.static 98), .indexed (.dynamic 99), .indexed (.dynamic 100), .indexed (.dynamic 0),
    .indexed (.dynamic 120), .named (.static 1) (.ofText "/index.html") true true,
    .named (.dynamic 5) (.ofText "value") false true, .named (.dynamic 109) [0xFF] true true,
    .literal (.ofText "name") (.ofText "value") true false]

theorem read?_write_bothSides : (∀ l ∈ bothSides, l.Bounded) ∧
    read? 121 (SectionHead.write 4096 ⟨121, 100⟩ ++ bothSides.flatMap (FieldLine.write 100)) =
      some ⟨⟨122, true, 20⟩, 100,
        [.indexed (.static 98), .indexed (.dynamic 99), .indexed (.dynamic 100), .indexed (.dynamic 0),
          .indexed (.dynamic 120), .named (.static 1) (.ofText "/index.html") true true,
          .named (.dynamic 5) (.ofText "value") false true, .named (.dynamic 109) [0xFF] true false,
          .literal (.ofText "name") (.ofText "value") true false]⟩ := by
  have hbounded : ∀ l ∈ bothSides, l.Bounded := by decide +kernel
  have hread := read?_write (show 4096 < 2 ^ 64 by decide)
    (show (SectionHead.mk 121 100).base ≤ Integer.maximum by decide) hbounded
  refine ⟨hbounded, hread.trans ?_⟩
  decide +kernel

end WireSection
end Qpack
