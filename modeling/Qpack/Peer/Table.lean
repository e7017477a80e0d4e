import Qpack.Section.Line
import Qpack.Stream.Instruction

/-!
# The peer's table

The peer keeps the same table by following the instructions. It evicts only what an instruction
leaves no room for, so it may hold old entries for longer than the sender does.

* `PeerTable` : the fields, oldest first, and how many there ever were;
* `fit` : what stays in a given room;
* `field?`, `fieldBack?` : a field by absolute index, and counted back from the newest;
* `follow?`, `followAll?` : one instruction, several; none if one of them is not allowed;
* `insertions?` : what several instructions insert;
* `resolve?` : the field that a line stands for;
* `Decoded`, `decode?` : the fields of a section and how many insertions it needs. There are none if the
  octets are no section, if not enough insertions have arrived, or if an entry is not there.
-/

namespace Qpack

structure PeerTable where
  /-- The largest capacity that the receiver allows. -/
  maxCapacity : Nat
  capacity : Nat
  /-- Oldest first. -/
  fields : List Field
  /-- How many fields were ever inserted. -/
  inserted : Nat
deriving DecidableEq, Repr

namespace PeerTable

/-- A table without fields or capacity. -/
def empty (maxCapacity : Nat) : PeerTable := ⟨maxCapacity, 0, [], 0⟩

/-- The room that fields take together. -/
def total (fields : List Field) : Nat := fields.foldr (·.size + ·) 0

/-- The fields that stay in a given room when the oldest have to leave. -/
def fit (room : Nat) : List Field → List Field
  | [] => []
  | f :: rest => if total (f :: rest) ≤ room then f :: rest else fit room rest

/-- The absolute index of the oldest field, or of the next one if there is none. -/
def first (t : PeerTable) : Nat := t.inserted - t.fields.length

def field? (t : PeerTable) (index : Nat) : Option Field :=
  if index < t.first then none else t.fields[index - t.first]?

def fieldBack? (t : PeerTable) (distance : Nat) : Option Field :=
  if distance < t.inserted then t.field? (t.inserted - 1 - distance) else none

/-- One more field. It must fit the capacity. -/
def insert? (t : PeerTable) (f : Field) : Option PeerTable :=
  if t.capacity < f.size then none
  else some { t with
    fields := fit (t.capacity - f.size) t.fields ++ [f]
    inserted := t.inserted + 1 }

def follow? (t : PeerTable) : Instruction → Option PeerTable
  | .setCapacity capacity =>
    if t.maxCapacity < capacity then none
    else some { t with capacity, fields := fit capacity t.fields }
  | .insertNamed (.static index) _ value =>
    (StaticTable.field? index).bind fun f => t.insert? ⟨f.name, value⟩
  | .insertNamed (.relative distance) _ value =>
    (t.fieldBack? distance).bind fun f => t.insert? ⟨f.name, value⟩
  | .insertLiteral _ name _ value => t.insert? ⟨name, value⟩
  | .duplicate distance => (t.fieldBack? distance).bind t.insert?

def followAll? (t : PeerTable) (list : List Instruction) : Option PeerTable := list.foldlM follow? t

/-- The instructions that insert a field, each with its field, the newest one after it. -/
def insertions? (t : PeerTable) : List Instruction → Option (List (Instruction × Field))
  | [] => some []
  | i :: rest => do
    let u ← t.follow? i
    let later ← u.insertions? rest
    if i.inserts then
      let f ← u.fields.getLast?
      return (i, f) :: later
    else return later

end PeerTable

/-! ## Decoding a field section -/

structure Decoded where
  requiredInsertCount : Nat
  fields : List Field
deriving DecidableEq, Repr

namespace PeerTable

/-- An entry, in a section that needs `required` insertions and no later ones. -/
def entry? (t : PeerTable) (required : Nat) : EntryRef → Option Field
  | .static index => StaticTable.field? index
  | .dynamic index => if index < required then t.field? index else none

def resolve? (t : PeerTable) (required : Nat) : FieldLine → Option Field
  | .indexed entry => t.entry? required entry
  | .named entry value _ _ => t.entry? required entry |>.map fun f => ⟨f.name, value⟩
  | .literal name value _ _ => some ⟨name, value⟩

def decode? (t : PeerTable) (data : Octets) : Option Decoded := do
  let (head, rest) ← WireHead.read data
  let required ← InsertCount.unwrap? t.maxCapacity t.inserted head.wrapped
  let base ← head.base? required
  let lines ← FieldLine.readAll base rest
  if t.inserted < required then none
  else
    let fields ← lines.mapM (t.resolve? required)
    return ⟨required, fields⟩

end PeerTable
end Qpack
