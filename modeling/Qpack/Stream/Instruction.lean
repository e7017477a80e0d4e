import Qpack.Wire.Literal

/-!
# Instructions to the peer's table

What goes down the encoder stream (RFC 9204, Section 4.3). The first bits of an instruction tell
which it is: `1` an insertion with the name of an entry, `01` one with a literal name, `001` a
capacity, `000` a duplicate.

* `NameRef` : the entry that lends its name;
* `Instruction` : the four instructions;
* `write`, `writeAll` : their octets;
* `read`, `readAll` : the instruction at the front of the octets; all of them;
* `sent`, `coded` : an instruction with its Huffman flags as they stand on the wire; whether any of them
  does.
-/

namespace Qpack

/-- An entry of the static table, or of the dynamic table counted back from the newest. -/
inductive NameRef where
  | static (index : Nat)
  | relative (index : Nat)
deriving DecidableEq, Repr

/-- A change of the dynamic table. `huffman` allows Huffman coding of a string. -/
inductive Instruction where
  /-- A new capacity. -/
  | setCapacity (capacity : Nat)
  /-- An insertion with the name of an entry. -/
  | insertNamed (name : NameRef) (huffman : Bool) (value : Octets)
  /-- An insertion with a name of its own. -/
  | insertLiteral (nameHuffman : Bool) (name : Octets) (valueHuffman : Bool) (value : Octets)
  /-- An entry once more, counted back from the newest. -/
  | duplicate (index : Nat)
deriving DecidableEq, Repr

namespace Instruction

/-- Whether an instruction adds an entry. -/
def inserts : Instruction → Bool
  | setCapacity _ => false
  | _ => true

/-! ## Writing -/

def write : Instruction → Octets
  | setCapacity capacity => Integer.write 5 0x20 capacity
  | insertNamed (.static index) huffman value =>
    Integer.write 6 0xC0 index ++ Literal.write 7 0x00 value huffman
  | insertNamed (.relative index) huffman value =>
    Integer.write 6 0x80 index ++ Literal.write 7 0x00 value huffman
  | insertLiteral nameHuffman name valueHuffman value =>
    Literal.write 5 0x40 name nameHuffman ++ Literal.write 7 0x00 value valueHuffman
  | duplicate index => Integer.write 5 0x00 index

def writeAll (list : List Instruction) : Octets := list.flatMap write

/-- An instruction whose flags say which strings are in fact coded. -/
def sent : Instruction → Instruction
  | insertNamed name huffman value => insertNamed name (Literal.isCoded value huffman) value
  | insertLiteral nameHuffman name valueHuffman value =>
    insertLiteral (Literal.isCoded name nameHuffman) name (Literal.isCoded value valueHuffman) value
  | other => other

/-- Whether any string of an instruction is in fact coded. -/
def coded : Instruction → Bool
  | insertNamed _ huffman value => Literal.isCoded value huffman
  | insertLiteral nameHuffman name valueHuffman value =>
    Literal.isCoded name nameHuffman || Literal.isCoded value valueHuffman
  | _ => false

/-! ## Reading -/

/-- The instruction at the front of `data`, and what follows it. -/
def read (data : Octets) : Option (Instruction × Octets) := do
  let first := (← data.head?).toNat
  if 128 ≤ first then
    let (index, rest) ← (Integer.read 6 data).toOption
    let (value, rest) ← Literal.read 7 rest
    let name := if first.testBit 6 then NameRef.static index else .relative index
    return (insertNamed name value.coded value.text, rest)
  else if 64 ≤ first then
    let (name, rest) ← Literal.read 5 data
    let (value, rest) ← Literal.read 7 rest
    return (insertLiteral name.coded name.text value.coded value.text, rest)
  else if 32 ≤ first then
    let (capacity, rest) ← (Integer.read 5 data).toOption
    return (setCapacity capacity, rest)
  else
    let (index, rest) ← (Integer.read 5 data).toOption
    return (duplicate index, rest)

/-- An instruction has at least one octet. -/
theorem length_of_read {data rest : Octets} {i : Instruction} (h : read data = some (i, rest)) :
    rest.length < data.length := by
  simp only [read, Option.bind_eq_bind, Option.bind_eq_some_iff] at h
  obtain ⟨_, _, h⟩ := h
  split at h
  · simp only [Option.bind_eq_some_iff] at h
    obtain ⟨⟨_, _⟩, h₁, ⟨_, _⟩, h₂, h⟩ := h
    cases h
    exact Nat.lt_trans (Literal.length_of_read h₂) (Integer.length_of_read_toOption h₁)
  · split at h
    · simp only [Option.bind_eq_some_iff] at h
      obtain ⟨⟨_, _⟩, h₁, ⟨_, _⟩, h₂, h⟩ := h
      cases h
      exact Nat.lt_trans (Literal.length_of_read h₂) (Literal.length_of_read h₁)
    · split at h <;>
      · simp only [Option.bind_eq_some_iff] at h
        obtain ⟨⟨_, _⟩, h₁, h⟩ := h
        cases h
        exact Integer.length_of_read_toOption h₁

/-- The instructions that `data` is made of, if it is made of instructions. -/
def readAll (data : Octets) : Option (List Instruction) :=
  if data.isEmpty then some []
  else match _left : read data with
    | some (i, rest) => (readAll rest).map (i :: ·)
    | none => none
termination_by data.length
decreasing_by exact length_of_read _left

end Instruction
end Qpack
