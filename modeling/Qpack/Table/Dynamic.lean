import Qpack.Table.Static

/-!
# The dynamic table

A queue of entries. The first entry ever has absolute index 0, each later one the next; the oldest
entry leaves first.

* `Newest` : for each key at most one index, the latest that was recorded;
* `Entry` : a field, its absolute index, and how many times field sections on their way refer to it;
* `DynamicTable` : the entries, the capacity, and the lookups by field and by name;
* `target`, `space`, `first` : the capacity that insertions have to keep, what is free of it, the
  oldest index;
* `entry?`, `find?`, `findName?` : an entry by index, the newest index of a field, of a name;
* `refer`, `release` : one reference more, one less;
* `EntryRef` : an entry of either table;
* `lookup`, `lookupName` : the entry to use for a field, for its name alone. The static table comes
  first: its entries never leave and need no acknowledgement. Of the dynamic entries the newest is taken,
  the one that stays longest.
-/

namespace Qpack

/-! ## The newest index by key -/

/-- For each key at most one index. -/
abbrev Newest (α : Type) := List (α × Nat)

namespace Newest
variable {α : Type} [DecidableEq α]

def index? (m : Newest α) (key : α) : Option Nat := (m.find? (·.1 = key)).map (·.2)

def record (m : Newest α) (key : α) (index : Nat) : Newest α :=
  (key, index) :: m.filter (·.1 ≠ key)

/-- Drops the index of a key if it is still the newest. -/
def forget (m : Newest α) (key : α) (index : Nat) : Newest α := m.filter (· ≠ (key, index))

end Newest

/-! ## Entries -/

structure Entry where
  field : Field
  /-- The absolute index: how many entries were inserted before. -/
  index : Nat
  /-- How many times sections that are not acknowledged yet refer to the entry. -/
  references : Nat
deriving DecidableEq, Repr

/-- The room that an entry takes. -/
def Entry.size (e : Entry) : Nat := e.field.size

structure DynamicTable where
  /-- Oldest first. -/
  entries : List Entry
  /-- The capacity that the peer was told. -/
  capacity : Nat
  /-- A lower capacity that waits until entries in use are given up. -/
  pending : Option Nat
  /-- The sizes of all entries together. -/
  used : Nat
  /-- How many entries were ever inserted. -/
  inserted : Nat
  /-- The share of the capacity that draining keeps free. -/
  drainingPercent : Nat
  /-- The newest index of each field. -/
  byField : Newest Field
  /-- The newest index of each name. -/
  byName : Newest Octets
deriving DecidableEq, Repr

namespace DynamicTable

/-- A table without entries or capacity. More than all of the capacity cannot be kept free. -/
def empty (drainingPercent : Nat) : DynamicTable where
  entries := []
  capacity := 0
  pending := none
  used := 0
  inserted := 0
  drainingPercent := min drainingPercent 100
  byField := []
  byName := []

def target (t : DynamicTable) : Nat := t.pending.getD t.capacity

def space (t : DynamicTable) : Nat := t.target - t.used

/-- The absolute index of the oldest entry, or of the next one if there is none. -/
def first (t : DynamicTable) : Nat := t.inserted - t.entries.length

def entry? (t : DynamicTable) (index : Nat) : Option Entry :=
  if index < t.first then none else t.entries[index - t.first]?

/-- Whether the entry with an absolute index is still there. -/
def contains (t : DynamicTable) (index : Nat) : Bool := t.entry? index |>.isSome

def find? (t : DynamicTable) (f : Field) : Option Nat := t.byField.index? f

/-- The newest index of a field with the given name. -/
def findName? (t : DynamicTable) (name : Octets) : Option Nat := t.byName.index? name

/-- Changes the entry with an absolute index, if it is there. -/
def modify (t : DynamicTable) (index : Nat) (change : Entry → Entry) : DynamicTable :=
  if index < t.first then t
  else { t with entries := t.entries.modify (index - t.first) change }

def refer (t : DynamicTable) (index : Nat) : DynamicTable :=
  t.modify index fun e => { e with references := e.references + 1 }

def release (t : DynamicTable) (index : Nat) : DynamicTable :=
  t.modify index fun e => { e with references := e.references - 1 }

/-- One reference less, if the entry is there and has one. -/
def release? (t : DynamicTable) (index : Nat) : Option DynamicTable :=
  match t.entry? index with
  | some e => if 0 < e.references then some (t.release index) else none
  | none => none

end DynamicTable

/-! ## Looking a field up in both tables -/

/-- An entry of the static table, or of the dynamic table by absolute index. -/
inductive EntryRef where
  | static (index : Nat)
  | dynamic (index : Nat)
deriving DecidableEq, Repr

namespace EntryRef

/-- Whether an entry is one of the static table. -/
def isStatic : EntryRef → Bool
  | static _ => true
  | dynamic _ => false

/-- How many insertions the entry needs. -/
def requiredInsertCount : EntryRef → Nat
  | static _ => 0
  | dynamic index => index + 1

end EntryRef

namespace DynamicTable

def lookup (t : DynamicTable) (f : Field) : Option EntryRef :=
  ((StaticTable.find? f).map .static).or ((t.find? f).map .dynamic)

def lookupName (t : DynamicTable) (name : Octets) : Option EntryRef :=
  ((StaticTable.findName? name).map .static).or ((t.findName? name).map .dynamic)

end DynamicTable
end Qpack
