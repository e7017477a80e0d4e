import Qpack.Table.Draining

/-!
# Operations on the dynamic table

Only the oldest entry may leave, and only when nothing refers to it.

* `evictOldest?` : the table without its oldest entry;
* `evictWhile` : evicts as long as a condition asks for it and the oldest entry may leave;
* `add`, `add?` : a new entry, for which room is made; only if it is there already;
* `applyPending`, `requestCapacity` : a capacity takes effect once the entries fit;
* `drain` : the draining entries leave, then a waiting capacity is tried again;
* `TableOperation`, `DynamicTable.perform` : everything that changes a table;
* `DynamicTable.reclaimable` : the room of the oldest entries up to the first in use;
* `DynamicTable.Allows` : what an operation asks of the table;
* `DynamicTable.run`, `DynamicTable.AllowsAll` : several operations one after another;
* `DynamicTable.Reachable` : the tables that allowed operations lead to.
-/

namespace Qpack
namespace DynamicTable

/-- The table without its oldest entry; none if something refers to it or there is no entry. -/
def evictOldest? (t : DynamicTable) : Option DynamicTable :=
  match t.entries with
  | [] => none
  | e :: rest =>
    if e.references = 0 then
      some { t with
        entries := rest
        used := t.used - e.size
        byField := t.byField.forget e.field e.index
        byName := t.byName.forget e.field.name e.index }
    else none

theorem length_of_evictOldest? {t u : DynamicTable} (h : t.evictOldest? = some u) :
    u.entries.length < t.entries.length := by
  unfold evictOldest? at h
  split at h
  · cases h
  · next e rest he =>
    split at h
    · cases h; simp [he]
    · cases h

/-- Evicts oldest entries while `more` holds and the oldest entry may leave. -/
def evictWhile (more : DynamicTable → Bool) (t : DynamicTable) : DynamicTable :=
  if more t then
    match _left : t.evictOldest? with
    | some u => evictWhile more u
    | none => t
  else t
termination_by t.entries.length
decreasing_by exact length_of_evictOldest? _left

/-- Appends a new entry, after evicting what does not leave room for it. -/
def add (t : DynamicTable) (f : Field) : DynamicTable :=
  let t := t.evictWhile fun t => t.target < t.used + f.size
  { t with
    entries := t.entries ++ [⟨f, t.inserted, 0⟩]
    used := t.used + f.size
    inserted := t.inserted + 1
    byField := t.byField.record f t.inserted
    byName := t.byName.record f.name t.inserted }

/-- Appends a new entry if there is room for it. -/
def add? (t : DynamicTable) (f : Field) : Option DynamicTable :=
  if t.space < f.size then none else some (t.add f)

/-- Evicts what a waiting capacity does not hold, and puts it into effect if the rest fits. -/
def applyPending (t : DynamicTable) : DynamicTable :=
  match t.pending with
  | none => t
  | some capacity =>
    let t := t.evictWhile fun t => capacity < t.used
    if capacity < t.used then t else { t with capacity := capacity, pending := none }

/-- Asks for a capacity, in place of one that waits; whether it is in effect. -/
def requestCapacity (t : DynamicTable) (capacity : Nat) : DynamicTable × Bool :=
  let t := applyPending { t with pending := some capacity }
  (t, t.pending.isNone)

/-- Evicts from the draining zone, then tries a waiting capacity again; the capacity if that puts it
into effect. -/
def drain (t : DynamicTable) : DynamicTable × Option Nat :=
  let limit := t.drainingIndex
  let drained := t.evictWhile fun t => t.first < limit
  let settled := drained.applyPending
  let changed := drained.pending.isSome && settled.pending.isNone
  (settled, if changed then some settled.capacity else none)

end DynamicTable

/-! ## Operations -/

inductive TableOperation where
  | requestCapacity (capacity : Nat)
  | add (f : Field)
  | drain
  | refer (index : Nat)
  | release (index : Nat)
deriving DecidableEq, Repr

namespace DynamicTable

def perform (t : DynamicTable) : TableOperation → DynamicTable
  | .requestCapacity capacity => (t.requestCapacity capacity).1
  | .add f => t.add f
  | .drain => t.drain.1
  | .refer index => t.refer index
  | .release index => t.release index

/-- The room of the oldest entries up to the first that is in use. -/
def reclaimable (t : DynamicTable) : Nat :=
  (t.entries.takeWhile (·.references = 0)).foldr (·.size + ·) 0

/-- A new entry needs room that is free or can be made free, a reference an entry that is there, a
release a reference to give up. -/
def Allows (t : DynamicTable) : TableOperation → Prop
  | .requestCapacity _ => True
  | .add f => t.used + f.size ≤ t.target + t.reclaimable
  | .drain => True
  | .refer index => t.contains index
  | .release index => (t.release? index).isSome

instance (t : DynamicTable) (op : TableOperation) : Decidable (t.Allows op) := by
  cases op <;> simp only [Allows] <;> infer_instance

/-- Operations one after another. -/
def run (t : DynamicTable) (ops : List TableOperation) : DynamicTable := ops.foldl perform t

/-- Each of several operations is allowed by the table that it finds. -/
def AllowsAll (t : DynamicTable) : List TableOperation → Prop
  | [] => True
  | op :: rest => t.Allows op ∧ (t.perform op).AllowsAll rest

/-- The tables that allowed operations lead to, from a table without entries. -/
inductive Reachable : DynamicTable → Prop where
  | empty (drainingPercent : Nat) : Reachable (empty drainingPercent)
  | perform {t : DynamicTable} {op : TableOperation} :
    Reachable t → t.Allows op → Reachable (t.perform op)

end DynamicTable
end Qpack
