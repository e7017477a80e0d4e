import Qpack.Field
import Qpack.Wire.Integer

/-!
# The head of a field section

A section begins with its required insert count and the base that its relative indices count from
(RFC 9204, Section 4.5.1). The count is written modulo twice the number of entries that the peer's table
can hold at most, so that it stays short; zero is kept for sections that need none. The base is written
as a distance from the required insert count, with a sign.

* `InsertCount.maxEntries` : how many entries a table of a capacity can hold;
* `InsertCount.wrap` : the count as it is written;
* `InsertCount.unwrap?` : the count again, for a peer that has seen `inserted` insertions;
* `SectionHead` : the two numbers;
* `WireHead` : the three numbers on the wire; `WireHead.write`, `WireHead.read`;
* `SectionHead.toWire`, `WireHead.base?` : from one form to the other.
-/

namespace Qpack.InsertCount

/-- How many entries a table of a capacity can hold. -/
def maxEntries (capacity : Nat) : Nat := capacity / Field.overhead

/-- The count as it is written, for a peer whose table has at most the given capacity. -/
def wrap (maxCapacity required : Nat) : Nat :=
  if required = 0 then 0 else required % (2 * max (maxEntries maxCapacity) 1) + 1

/-- The count that was written as `wrapped`: the one nearest to `inserted`, if that makes sense. -/
def unwrap? (maxCapacity inserted wrapped : Nat) : Option Nat :=
  let range := 2 * maxEntries maxCapacity
  if wrapped = 0 then some 0
  else if range < wrapped then none
  else
    let maxValue := inserted + maxEntries maxCapacity
    let candidate := maxValue / range * range + wrapped - 1
    if candidate ≤ maxValue then if candidate = 0 then none else some candidate
    else if candidate ≤ range then none
    else some (candidate - range)

end Qpack.InsertCount

namespace Qpack

structure SectionHead where
  requiredInsertCount : Nat
  /-- The insert count from which indices count back, or on. -/
  base : Nat
deriving DecidableEq, Repr

/-- What a section begins with, as it is written. -/
structure WireHead where
  /-- The required insert count, wrapped. -/
  wrapped : Nat
  /-- Whether the base lies below the required insert count. -/
  sign : Bool
  /-- How far the base lies off, less one if it lies below. -/
  deltaBase : Nat
deriving DecidableEq, Repr

namespace SectionHead

/-- Whether the base lies below the required insert count. -/
def sign (h : SectionHead) : Bool := decide (h.base < h.requiredInsertCount)

/-- How far the base lies off, less one if it lies below. -/
def deltaBase (h : SectionHead) : Nat :=
  if h.sign then h.requiredInsertCount - h.base - 1 else h.base - h.requiredInsertCount

/-- The head as it is written for a peer whose table has at most the given capacity. -/
def toWire (maxCapacity : Nat) (h : SectionHead) : WireHead :=
  ⟨InsertCount.wrap maxCapacity h.requiredInsertCount, h.sign, h.deltaBase⟩

end SectionHead

namespace WireHead

def write (h : WireHead) : Octets :=
  Integer.write 8 0x00 h.wrapped ++ Integer.write 7 (if h.sign then 0x80 else 0x00) h.deltaBase

/-- The head at the front of `data`, and what follows it. The distance of the base may have any size:
with a required insert count of zero, it is the number of all insertions there have been. -/
def read (data : Octets) : Option (WireHead × Octets) := do
  let (wrapped, rest) ← (Integer.read 8 data).toOption
  let sign := (← rest.head?).toNat.testBit 7
  let (deltaBase, rest) ← Integer.readAny? 7 rest
  return (⟨wrapped, sign, deltaBase⟩, rest)

/-- The base, once the required insert count is known. -/
def base? (h : WireHead) (required : Nat) : Option Nat :=
  if h.sign then if h.deltaBase < required then some (required - h.deltaBase - 1) else none
  else some (required + h.deltaBase)

end WireHead

/-- The octets of a head, for a peer whose table has at most the given capacity. -/
def SectionHead.write (maxCapacity : Nat) (h : SectionHead) : Octets := (h.toWire maxCapacity).write

end Qpack
