import Qpack.Wire.Huffman
import Qpack.Wire.Integer

/-!
# String literals

A flag that says whether the string is Huffman coded, the length of what follows as a prefixed
integer below the flag, and the octets.

* `write` : the octets of a string, coded where that is asked for and strictly shorter;
* `Literal`, `read` : the string at the front of the octets, whether it was coded, and what follows
  it.
-/

namespace Qpack

structure Literal where
  text : Octets
  coded : Bool
deriving DecidableEq, Repr

namespace Literal

/-- Whether a string is sent Huffman coded when `huffman` allows it. -/
def isCoded (data : Octets) (huffman : Bool) : Bool :=
  huffman && decide (Huffman.encodedSize data < data.length)

/-- The octets of a string whose length has `width` bits of a first octet with `flags`. -/
def write (width : Nat) (flags : UInt8) (data : Octets) (huffman : Bool) : Octets :=
  if isCoded data huffman then
    Integer.write width (flags ||| UInt8.ofNat (1 <<< width)) (Huffman.encodedSize data)
      ++ Huffman.encode data
  else
    Integer.write width flags data.length ++ data

/-- The string at the front of `data`, and what follows it. -/
def read (width : Nat) (data : Octets) : Option (Literal × Octets) :=
  match Integer.read width data with
  | .error _ => none
  | .ok (length, rest) =>
    if rest.length < length then none
    else if (data.headD 0).toNat.testBit width then
      (Huffman.decode? (rest.take length)).map fun text => (⟨text, true⟩, rest.drop length)
    else some (⟨rest.take length, false⟩, rest.drop length)

/-- A string has at least the octets of its length. -/
theorem length_of_read {width : Nat} {data rest : Octets} {l : Literal}
    (h : read width data = some (l, rest)) : rest.length < data.length := by
  cases hr : Integer.read width data with
  | error fault => simp [read, hr] at h
  | ok p =>
    obtain ⟨length, tail⟩ := p
    have shorter := Integer.length_of_read hr
    simp only [read, hr] at h
    split at h
    · cases h
    · split at h
      · obtain ⟨text, _, he⟩ := Option.map_eq_some_iff.1 h
        cases he
        simp; omega
      · cases h
        simp; omega

end Literal
end Qpack
