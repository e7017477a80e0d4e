import Qpack.Octets

/-!
# Huffman coding of strings

A fixed code (RFC 7541, Appendix B): frequent octets have code words of 5 bits, rare ones up to 30. The
code words of a string's octets follow one another without a gap; ones fill the last octet.

* `Code` : a code word, as a number and its length;
* `codes` : the code words of the octets in order, then that of the end of the string;
* `code` : the code word of an octet; `endCode` : that of the end;
* `Code.toBits` : a code word bit by bit; `Code.push` : a code word with one bit more;
* `symbol?` : the octet with a given code word;
* `encodedSize` : the length of a coded string;
* `Pending`, `push`, `finish` : the bits that wait for a whole octet, and what completes them;
* `encode`, `append` : a coded string, alone and behind what is already written;
* `decode?` : the string of coded octets, read bit by bit.
-/

namespace Qpack.Huffman

/-- A code word: the number its bits write, and how many they are. -/
structure Code where
  value : Nat
  length : Nat
deriving DecidableEq, Repr

/-- The bits of a code word, first bit first. -/
def Code.toBits (c : Code) : List Bool := (List.range c.length).reverse.map c.value.testBit

/-- The word of no bits. -/
def Code.empty : Code := ⟨0, 0⟩

/-- A word with one bit more at its end. -/
def Code.push (c : Code) (bit : Bool) : Code := ⟨2 * c.value + bit.toNat, c.length + 1⟩

/-- The code words of the octets 0 to 255, then that of the end of the string. -/
def codes : Array Code :=
  #[⟨0x1ff8, 13⟩, ⟨0x7fffd8, 23⟩, ⟨0xfffffe2, 28⟩, ⟨0xfffffe3, 28⟩, ⟨0xfffffe4, 28⟩,
    ⟨0xfffffe5, 28⟩, ⟨0xfffffe6, 28⟩, ⟨0xfffffe7, 28⟩, ⟨0xfffffe8, 28⟩, ⟨0xffffea, 24⟩,
    ⟨0x3ffffffc, 30⟩, ⟨0xfffffe9, 28⟩, ⟨0xfffffea, 28⟩, ⟨0x3ffffffd, 30⟩, ⟨0xfffffeb, 28⟩,
    ⟨0xfffffec, 28⟩, ⟨0xfffffed, 28⟩, ⟨0xfffffee, 28⟩, ⟨0xfffffef, 28⟩, ⟨0xffffff0, 28⟩,
    ⟨0xffffff1, 28⟩, ⟨0xffffff2, 28⟩, ⟨0x3ffffffe, 30⟩, ⟨0xffffff3, 28⟩, ⟨0xffffff4, 28⟩,
    ⟨0xffffff5, 28⟩, ⟨0xffffff6, 28⟩, ⟨0xffffff7, 28⟩, ⟨0xffffff8, 28⟩, ⟨0xffffff9, 28⟩,
    ⟨0xffffffa, 28⟩, ⟨0xffffffb, 28⟩, ⟨0x14, 6⟩, ⟨0x3f8, 10⟩, ⟨0x3f9, 10⟩, ⟨0xffa, 12⟩,
    ⟨0x1ff9, 13⟩, ⟨0x15, 6⟩, ⟨0xf8, 8⟩, ⟨0x7fa, 11⟩, ⟨0x3fa, 10⟩, ⟨0x3fb, 10⟩, ⟨0xf9, 8⟩,
    ⟨0x7fb, 11⟩, ⟨0xfa, 8⟩, ⟨0x16, 6⟩, ⟨0x17, 6⟩, ⟨0x18, 6⟩, ⟨0x0, 5⟩, ⟨0x1, 5⟩, ⟨0x2, 5⟩,
    ⟨0x19, 6⟩, ⟨0x1a, 6⟩, ⟨0x1b, 6⟩, ⟨0x1c, 6⟩, ⟨0x1d, 6⟩, ⟨0x1e, 6⟩, ⟨0x1f, 6⟩, ⟨0x5c, 7⟩,
    ⟨0xfb, 8⟩, ⟨0x7ffc, 15⟩, ⟨0x20, 6⟩, ⟨0xffb, 12⟩, ⟨0x3fc, 10⟩, ⟨0x1ffa, 13⟩, ⟨0x21, 6⟩,
    ⟨0x5d, 7⟩, ⟨0x5e, 7⟩, ⟨0x5f, 7⟩, ⟨0x60, 7⟩, ⟨0x61, 7⟩, ⟨0x62, 7⟩, ⟨0x63, 7⟩, ⟨0x64, 7⟩,
    ⟨0x65, 7⟩, ⟨0x66, 7⟩, ⟨0x67, 7⟩, ⟨0x68, 7⟩, ⟨0x69, 7⟩, ⟨0x6a, 7⟩, ⟨0x6b, 7⟩, ⟨0x6c, 7⟩,
    ⟨0x6d, 7⟩, ⟨0x6e, 7⟩, ⟨0x6f, 7⟩, ⟨0x70, 7⟩, ⟨0x71, 7⟩, ⟨0x72, 7⟩, ⟨0xfc, 8⟩, ⟨0x73, 7⟩,
    ⟨0xfd, 8⟩, ⟨0x1ffb, 13⟩, ⟨0x7fff0, 19⟩, ⟨0x1ffc, 13⟩, ⟨0x3ffc, 14⟩, ⟨0x22, 6⟩, ⟨0x7ffd, 15⟩,
    ⟨0x3, 5⟩, ⟨0x23, 6⟩, ⟨0x4, 5⟩, ⟨0x24, 6⟩, ⟨0x5, 5⟩, ⟨0x25, 6⟩, ⟨0x26, 6⟩, ⟨0x27, 6⟩,
    ⟨0x6, 5⟩, ⟨0x74, 7⟩, ⟨0x75, 7⟩, ⟨0x28, 6⟩, ⟨0x29, 6⟩, ⟨0x2a, 6⟩, ⟨0x7, 5⟩, ⟨0x2b, 6⟩,
    ⟨0x76, 7⟩, ⟨0x2c, 6⟩, ⟨0x8, 5⟩, ⟨0x9, 5⟩, ⟨0x2d, 6⟩, ⟨0x77, 7⟩, ⟨0x78, 7⟩, ⟨0x79, 7⟩,
    ⟨0x7a, 7⟩, ⟨0x7b, 7⟩, ⟨0x7ffe, 15⟩, ⟨0x7fc, 11⟩, ⟨0x3ffd, 14⟩, ⟨0x1ffd, 13⟩, ⟨0xffffffc, 28⟩,
    ⟨0xfffe6, 20⟩, ⟨0x3fffd2, 22⟩, ⟨0xfffe7, 20⟩, ⟨0xfffe8, 20⟩, ⟨0x3fffd3, 22⟩, ⟨0x3fffd4, 22⟩,
    ⟨0x3fffd5, 22⟩, ⟨0x7fffd9, 23⟩, ⟨0x3fffd6, 22⟩, ⟨0x7fffda, 23⟩, ⟨0x7fffdb, 23⟩,
    ⟨0x7fffdc, 23⟩, ⟨0x7fffdd, 23⟩, ⟨0x7fffde, 23⟩, ⟨0xffffeb, 24⟩, ⟨0x7fffdf, 23⟩,
    ⟨0xffffec, 24⟩, ⟨0xffffed, 24⟩, ⟨0x3fffd7, 22⟩, ⟨0x7fffe0, 23⟩, ⟨0xffffee, 24⟩,
    ⟨0x7fffe1, 23⟩, ⟨0x7fffe2, 23⟩, ⟨0x7fffe3, 23⟩, ⟨0x7fffe4, 23⟩, ⟨0x1fffdc, 21⟩,
    ⟨0x3fffd8, 22⟩, ⟨0x7fffe5, 23⟩, ⟨0x3fffd9, 22⟩, ⟨0x7fffe6, 23⟩, ⟨0x7fffe7, 23⟩,
    ⟨0xffffef, 24⟩, ⟨0x3fffda, 22⟩, ⟨0x1fffdd, 21⟩, ⟨0xfffe9, 20⟩, ⟨0x3fffdb, 22⟩,
    ⟨0x3fffdc, 22⟩, ⟨0x7fffe8, 23⟩, ⟨0x7fffe9, 23⟩, ⟨0x1fffde, 21⟩, ⟨0x7fffea, 23⟩,
    ⟨0x3fffdd, 22⟩, ⟨0x3fffde, 22⟩, ⟨0xfffff0, 24⟩, ⟨0x1fffdf, 21⟩, ⟨0x3fffdf, 22⟩,
    ⟨0x7fffeb, 23⟩, ⟨0x7fffec, 23⟩, ⟨0x1fffe0, 21⟩, ⟨0x1fffe1, 21⟩, ⟨0x3fffe0, 22⟩,
    ⟨0x1fffe2, 21⟩, ⟨0x7fffed, 23⟩, ⟨0x3fffe1, 22⟩, ⟨0x7fffee, 23⟩, ⟨0x7fffef, 23⟩,
    ⟨0xfffea, 20⟩, ⟨0x3fffe2, 22⟩, ⟨0x3fffe3, 22⟩, ⟨0x3fffe4, 22⟩, ⟨0x7ffff0, 23⟩,
    ⟨0x3fffe5, 22⟩, ⟨0x3fffe6, 22⟩, ⟨0x7ffff1, 23⟩, ⟨0x3ffffe0, 26⟩, ⟨0x3ffffe1, 26⟩,
    ⟨0xfffeb, 20⟩, ⟨0x7fff1, 19⟩, ⟨0x3fffe7, 22⟩, ⟨0x7ffff2, 23⟩, ⟨0x3fffe8, 22⟩,
    ⟨0x1ffffec, 25⟩, ⟨0x3ffffe2, 26⟩, ⟨0x3ffffe3, 26⟩, ⟨0x3ffffe4, 26⟩, ⟨0x7ffffde, 27⟩,
    ⟨0x7ffffdf, 27⟩, ⟨0x3ffffe5, 26⟩, ⟨0xfffff1, 24⟩, ⟨0x1ffffed, 25⟩, ⟨0x7fff2, 19⟩,
    ⟨0x1fffe3, 21⟩, ⟨0x3ffffe6, 26⟩, ⟨0x7ffffe0, 27⟩, ⟨0x7ffffe1, 27⟩, ⟨0x3ffffe7, 26⟩,
    ⟨0x7ffffe2, 27⟩, ⟨0xfffff2, 24⟩, ⟨0x1fffe4, 21⟩, ⟨0x1fffe5, 21⟩, ⟨0x3ffffe8, 26⟩,
    ⟨0x3ffffe9, 26⟩, ⟨0xffffffd, 28⟩, ⟨0x7ffffe3, 27⟩, ⟨0x7ffffe4, 27⟩, ⟨0x7ffffe5, 27⟩,
    ⟨0xfffec, 20⟩, ⟨0xfffff3, 24⟩, ⟨0xfffed, 20⟩, ⟨0x1fffe6, 21⟩, ⟨0x3fffe9, 22⟩, ⟨0x1fffe7, 21⟩,
    ⟨0x1fffe8, 21⟩, ⟨0x7ffff3, 23⟩, ⟨0x3fffea, 22⟩, ⟨0x3fffeb, 22⟩, ⟨0x1ffffee, 25⟩,
    ⟨0x1ffffef, 25⟩, ⟨0xfffff4, 24⟩, ⟨0xfffff5, 24⟩, ⟨0x3ffffea, 26⟩, ⟨0x7ffff4, 23⟩,
    ⟨0x3ffffeb, 26⟩, ⟨0x7ffffe6, 27⟩, ⟨0x3ffffec, 26⟩, ⟨0x3ffffed, 26⟩, ⟨0x7ffffe7, 27⟩,
    ⟨0x7ffffe8, 27⟩, ⟨0x7ffffe9, 27⟩, ⟨0x7ffffea, 27⟩, ⟨0x7ffffeb, 27⟩, ⟨0xffffffe, 28⟩,
    ⟨0x7ffffec, 27⟩, ⟨0x7ffffed, 27⟩, ⟨0x7ffffee, 27⟩, ⟨0x7ffffef, 27⟩, ⟨0x7fffff0, 27⟩,
    ⟨0x3ffffee, 26⟩, ⟨0x3fffffff, 30⟩]

theorem size_codes : codes.size = 257 := by decide +kernel

def code (b : UInt8) : Code :=
  have : b.toNat < codes.size := by rw [size_codes]; exact Nat.lt_trans b.toNat_lt (by decide)
  codes[b.toNat]

/-- The code word of the end of the string, all ones. -/
def endCode : Code :=
  have : 256 < codes.size := by rw [size_codes]; decide
  codes[256]

/-- The octet whose code word is `c`. -/
def symbol? (c : Code) : Option UInt8 :=
  ((codes.toList.take 256).findIdx? (· == c)).map UInt8.ofNat

/-! ## Strings -/

/-- The length of a coded string: its bits, filled up to whole octets. -/
def encodedSize (data : Octets) : Nat := (data.foldr (fun b bits => (code b).length + bits) 0 + 7) / 8

/-! ## Writing -/

/-- Fewer than eight bits that wait for an octet: the low `count` bits of a 64-bit word. -/
structure Pending where
  word : UInt64
  count : Nat
deriving DecidableEq, Repr

/-- No bits. -/
def Pending.empty : Pending := ⟨0, 0⟩

/-- The `n` octets of `word` that stand above its low `low` bits, first octet first. -/
def octetsAbove (word : UInt64) (low : Nat) : Nat → Octets
  | 0 => []
  | n + 1 => (word >>> UInt64.ofNat (8 * n + low)).toUInt8 :: octetsAbove word low n

/-- The word whose low `n` bits are ones. -/
def onesBelow (n : Nat) : UInt64 := (1 <<< UInt64.ofNat n) - 1

/-- Adds a code word: the octets that become whole, and the bits left over. -/
def Pending.push (p : Pending) (c : Code) : Octets × Pending :=
  let word := p.word <<< UInt64.ofNat c.length ||| UInt64.ofNat c.value
  let count := p.count + c.length
  (octetsAbove word (count % 8) (count / 8), ⟨word &&& onesBelow (count % 8), count % 8⟩)

/-- The last octet, filled with ones; none if no bits wait. -/
def Pending.finish (p : Pending) : Octets :=
  if p.count = 0 then []
  else [(p.word <<< UInt64.ofNat (8 - p.count) ||| onesBelow (8 - p.count)).toUInt8]

/-- The octets of a string, behind the bits that wait. -/
def encodeFrom (p : Pending) : Octets → Octets
  | [] => p.finish
  | b :: rest => (p.push (code b)).1 ++ encodeFrom (p.push (code b)).2 rest

def encode (data : Octets) : Octets := encodeFrom .empty data

/-- Writes a coded string behind `written`; also how many octets that adds. -/
def append (written data : Octets) : Octets × Nat := (written ++ encode data, (encode data).length)

/-! ## Reading -/

/-- The bits of an octet, highest first. -/
def bitsOf (b : UInt8) : List Bool := (List.range 8).reverse.map b.toNat.testBit

/-- Reads code words, `word` being the bits since the last one. At the end fewer than eight ones may
be left. -/
def decodeBits (word : Code) : List Bool → Option Octets
  | [] => if word.length < 8 ∧ word.value + 1 = 1 <<< word.length then some [] else none
  | bit :: rest =>
    match symbol? (word.push bit) with
    | some b => (decodeBits .empty rest).map (b :: ·)
    | none => decodeBits (word.push bit) rest

def decode? (coded : Octets) : Option Octets := decodeBits .empty (coded.flatMap bitsOf)

end Qpack.Huffman
