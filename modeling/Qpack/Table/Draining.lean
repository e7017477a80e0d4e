import Qpack.Table.Dynamic

/-!
# The draining zone

The oldest entries, those that would have to leave to keep `drainingPercent` of the capacity free,
get no new references, so that the ones they have run out and they can leave.

Capacities are 64-bit words, and the room is counted in signed 64-bit words.

* `signed` : the signed reading of a 64-bit word;
* `threshold`, `free` : the room to keep free, the room that is free;
* `drainingCount`, `drainingIndex` : how many entries drain, the first index beyond them;
* `canReference`, `refer?` : what new field lines may refer to;
* `word?`, `signedWord?`, `less?` : a number that a word holds, a signed word, a difference that is a number;
* `drainingCount?`, `drainingIndex?` : the zone again; none if a product, a sum, a difference or a change
  between the kinds of words loses anything.
-/

namespace Qpack

/-- The signed reading of the low 64 bits of a number. -/
def signed (n : Int) : Int := n.bmod UInt64.size

namespace DynamicTable

def threshold (t : DynamicTable) : Int := (t.target * t.drainingPercent % UInt64.size / 100 : Nat)

/-- The room that is free, below zero while the table is to shrink. -/
def free (t : DynamicTable) : Int := signed (t.target - t.used)

/-- How many of the oldest entries have to leave until `room` reaches `threshold`. -/
def drainingCount (threshold room : Int) : List Entry → Nat
  | [] => 0
  | e :: rest =>
    if threshold ≤ room then 0 else drainingCount threshold (signed (room + e.size)) rest + 1

def drainingIndex (t : DynamicTable) : Nat := t.first + drainingCount t.threshold t.free t.entries

/-- Whether a new field line may refer to an entry. -/
def canReference (t : DynamicTable) (index : Nat) : Bool :=
  t.contains index && decide (t.drainingIndex ≤ index)

/-- One reference more to an entry that a new field line may refer to. -/
def refer? (t : DynamicTable) (index : Nat) : Option DynamicTable :=
  if t.canReference index then some (t.refer index) else none

end DynamicTable

/-! ## With every word checked -/

/-- A number, if a 64-bit word holds it. -/
def word? (n : Nat) : Option Nat := if n < UInt64.size then some n else none

/-- A number, if a signed 64-bit word holds it. -/
def signedWord? (n : Int) : Option Int :=
  if Int64.minValue.toInt ≤ n ∧ n ≤ Int64.maxValue.toInt then some n else none

/-- A difference, if it is not below zero. -/
def less? (m n : Nat) : Option Nat := if n ≤ m then some (m - n) else none

namespace DynamicTable

def drainingCount? (threshold room : Int) : List Entry → Option Nat
  | [] => some 0
  | e :: rest =>
    if threshold ≤ room then some 0
    else do
      let size ← signedWord? e.size
      let more ← signedWord? (room + size)
      let count ← drainingCount? threshold more rest
      return count + 1

def drainingIndex? (t : DynamicTable) : Option Nat := do
  let product ← word? (t.target * t.drainingPercent)
  let threshold ← signedWord? (product / 100 : Nat)
  let target ← signedWord? t.target
  let used ← signedWord? t.used
  let room ← signedWord? (target - used)
  let first ← less? t.inserted t.entries.length
  let count ← drainingCount? threshold room t.entries
  return first + count

end DynamicTable
end Qpack
