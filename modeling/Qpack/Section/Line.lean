import Qpack.Section.Head
import Qpack.Table.Dynamic
import Qpack.Wire.Literal

/-!
# Field lines

A line stands for one field (RFC 9204, Section 4.5): an entry, the name of an entry with a literal
value, or a literal name and value. A dynamic entry is named by its distance from the base of the
section, back from it or on from it.

* `FieldLine` : the three forms;
* `requiredInsertCount` : how many insertions a line needs;
* `write`, `read` : its octets in a section of a given base;
* `readAll` : the lines of a section of a given base;
* `sent`, `coded` : a line with its Huffman flag as it stands on the wire; whether it does;
* `never` : whether a line forbids indexing;
* `WireSection`, `WireSection.read?` : a whole section. Its lines can be told only by who knows the base,
  and so the required insert count, which the head gives wrapped.
-/

namespace Qpack

/-- One field of a section. `never` forbids everyone on the way to index the field; `huffman` allows
Huffman coding. -/
inductive FieldLine where
  /-- An entry. -/
  | indexed (entry : EntryRef)
  /-- The name of an entry, and a value. -/
  | named (entry : EntryRef) (value : Octets) (never huffman : Bool)
  /-- A name and a value. -/
  | literal (name value : Octets) (never huffman : Bool)
deriving DecidableEq, Repr

namespace FieldLine

/-- The entry that a line refers to. -/
def entry? : FieldLine → Option EntryRef
  | indexed entry | named entry .. => some entry
  | literal .. => none

def requiredInsertCount (line : FieldLine) : Nat :=
  line.entry?.map EntryRef.requiredInsertCount |>.getD 0

/-! ## Writing -/

/-- A flag, where it is set. -/
def flag (set : Bool) (bit : UInt8) : UInt8 := if set then bit else 0

/-- The octets of a line in a section with the given base. -/
def write (base : Nat) : FieldLine → Octets
  | indexed (.static index) => Integer.write 6 0xC0 index
  | indexed (.dynamic index) =>
    if index < base then Integer.write 6 0x80 (base - 1 - index)
    else Integer.write 4 0x10 (index - base)
  | named (.static index) value never huffman =>
    Integer.write 4 (0x50 ||| flag never 0x20) index ++ Literal.write 7 0x00 value huffman
  | named (.dynamic index) value never huffman =>
    (if index < base then Integer.write 4 (0x40 ||| flag never 0x20) (base - 1 - index)
      else Integer.write 3 (flag never 0x08) (index - base))
      ++ Literal.write 7 0x00 value huffman
  | literal name value never huffman =>
    Literal.write 3 (0x20 ||| flag never 0x10) name huffman ++ Literal.write 7 0x00 value huffman

/-- A line whose flag says whether any of its strings is in fact coded. -/
def sent : FieldLine → FieldLine
  | indexed entry => indexed entry
  | named entry value never huffman => named entry value never (Literal.isCoded value huffman)
  | literal name value never huffman =>
    literal name value never (Literal.isCoded name huffman || Literal.isCoded value huffman)

/-- Whether any string of a line is in fact coded. -/
def coded : FieldLine → Bool
  | indexed _ => false
  | named _ value _ huffman => Literal.isCoded value huffman
  | literal name value _ huffman => Literal.isCoded name huffman || Literal.isCoded value huffman

/-- Whether a line forbids everyone on the way to index the field. -/
def never : FieldLine → Bool
  | indexed _ => false
  | named _ _ never _ | literal _ _ never _ => never

/-! ## Reading -/

/-- The entry that a line names by a static index, or by its distance back from the base. -/
def entryAt? (base : Nat) (isStatic : Bool) (index : Nat) : Option EntryRef :=
  if isStatic then some (.static index)
  else if index < base then some (.dynamic (base - 1 - index))
  else none

/-- The line at the front of `data` in a section with the given base, and what follows it. -/
def read (base : Nat) (data : Octets) : Option (FieldLine × Octets) := do
  let first := (← data.head?).toNat
  if 128 ≤ first then
    let (index, rest) ← (Integer.read 6 data).toOption
    let entry ← entryAt? base (first.testBit 6) index
    return (indexed entry, rest)
  else if 64 ≤ first then
    let (index, rest) ← (Integer.read 4 data).toOption
    let entry ← entryAt? base (first.testBit 4) index
    let (value, rest) ← Literal.read 7 rest
    return (named entry value.text (first.testBit 5) value.coded, rest)
  else if 32 ≤ first then
    let (name, rest) ← Literal.read 3 data
    let (value, rest) ← Literal.read 7 rest
    return (literal name.text value.text (first.testBit 4) (name.coded || value.coded), rest)
  else if 16 ≤ first then
    let (index, rest) ← (Integer.read 4 data).toOption
    return (indexed (.dynamic (base + index)), rest)
  else
    let (index, rest) ← (Integer.read 3 data).toOption
    let (value, rest) ← Literal.read 7 rest
    return (named (.dynamic (base + index)) value.text (first.testBit 3) value.coded, rest)

/-- A line has at least one octet. -/
theorem length_of_read {base : Nat} {data rest : Octets} {l : FieldLine}
    (h : read base data = some (l, rest)) : rest.length < data.length := by
  simp only [read, Option.bind_eq_bind, Option.bind_eq_some_iff] at h
  obtain ⟨_, _, h⟩ := h
  split at h
  · simp only [Option.bind_eq_some_iff] at h
    obtain ⟨⟨_, _⟩, h₁, _, _, h⟩ := h
    cases h
    exact Integer.length_of_read_toOption h₁
  · split at h
    · simp only [Option.bind_eq_some_iff] at h
      obtain ⟨⟨_, _⟩, h₁, _, _, ⟨_, _⟩, h₂, h⟩ := h
      cases h
      exact Nat.lt_trans (Literal.length_of_read h₂) (Integer.length_of_read_toOption h₁)
    · split at h
      · simp only [Option.bind_eq_some_iff] at h
        obtain ⟨⟨_, _⟩, h₁, ⟨_, _⟩, h₂, h⟩ := h
        cases h
        exact Nat.lt_trans (Literal.length_of_read h₂) (Literal.length_of_read h₁)
      · split at h
        · simp only [Option.bind_eq_some_iff] at h
          obtain ⟨⟨_, _⟩, h₁, h⟩ := h
          cases h
          exact Integer.length_of_read_toOption h₁
        · simp only [Option.bind_eq_some_iff] at h
          obtain ⟨⟨_, _⟩, h₁, ⟨_, _⟩, h₂, h⟩ := h
          cases h
          exact Nat.lt_trans (Literal.length_of_read h₂) (Integer.length_of_read_toOption h₁)

/-- The lines that `data` is made of in a section with the given base, if it is made of lines. -/
def readAll (base : Nat) (data : Octets) : Option (List FieldLine) :=
  if data.isEmpty then some []
  else match _left : read base data with
    | some (l, rest) => (readAll base rest).map (l :: ·)
    | none => none
termination_by data.length
decreasing_by exact length_of_read _left

end FieldLine

/-! ## Whole sections -/

/-- A head as it is written, and lines up to the last octet. -/
structure WireSection where
  head : WireHead
  /-- The insert count from which the lines count back, or on. -/
  base : Nat
  lines : List FieldLine
deriving DecidableEq, Repr

namespace WireSection

/-- The section that `data` is, if all of it is one. -/
def read? (required : Nat) (data : Octets) : Option WireSection := do
  let (head, rest) ← WireHead.read data
  let base ← head.base? required
  let lines ← FieldLine.readAll base rest
  return ⟨head, base, lines⟩

end WireSection
end Qpack
