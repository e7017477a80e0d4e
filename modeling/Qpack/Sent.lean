/-!
# Sections on their way

What the sender remembers of the field sections that the peer has not decoded yet. The peer decodes the
sections of a stream in order. It acknowledges those that need an insertion, and no others.

* `SentSection` : one section; `refer` : one more dynamic entry that it depends on;
* `SentSection.block`, `SentSection.unblock` : takes a unit of the budget for streams that may block, gives
  it back;
* `SentQueue` : the sections of a stream, oldest first; `add` : one more;
* `SentQueue.acknowledge?` : the section that an acknowledgement means, and the queue after it;
* `Streams` : the streams with sections on their way;
* `Streams.queue`, `Streams.put` : the queue of a stream, read and replaced;
* `Streams.settle`, `Streams.settled` : gives back the units of sections whose insertions have
  arrived, and how many;
* `QueueOperation`, `SentQueue.run` : sections that come and acknowledgements, one after another.
-/

namespace Qpack

structure SentSection where
  /-- How many insertions the peer needs to decode the section. -/
  requiredInsertCount : Nat
  /-- Whether the section holds a unit of the budget for streams that may block. -/
  blocked : Bool
  /-- The absolute indices that its lines refer to, in order. -/
  references : List Nat
deriving DecidableEq, Repr

namespace SentSection

/-- A section that depends on nothing. -/
def empty : SentSection := ⟨0, false, []⟩

def refer (s : SentSection) (index : Nat) : SentSection :=
  { s with
    requiredInsertCount := max s.requiredInsertCount (index + 1)
    references := s.references ++ [index] }

def block (s : SentSection) : SentSection := { s with blocked := true }

def unblock (s : SentSection) : SentSection := { s with blocked := false }

/-- Gives the unit back once the peer is known to have all insertions that the section needs. -/
def settle (known : Nat) (s : SentSection) : SentSection :=
  if s.requiredInsertCount ≤ known then s.unblock else s

/-- Whether `settle` gives a unit back. -/
def settles (known : Nat) (s : SentSection) : Bool :=
  decide (s.requiredInsertCount ≤ known) && s.blocked

end SentSection

/-! ## The sections of one stream -/

/-- The sections of a stream that are on their way, oldest first. -/
abbrev SentQueue := List SentSection

namespace SentQueue

def add (q : SentQueue) (s : SentSection) : SentQueue := q ++ [s]

/-- The oldest section that needs an insertion, and those after it. Sections before it were decoded
as well. -/
def acknowledge? : SentQueue → Option (SentSection × SentQueue)
  | [] => none
  | s :: rest => if 0 < s.requiredInsertCount then some (s, rest) else acknowledge? rest

end SentQueue

/-! ## The sections of all streams -/

/-- The streams with sections on their way, each with its queue. -/
abbrev Streams := List (Nat × SentQueue)

namespace Streams

def queue : Streams → Nat → SentQueue
  | [], _ => []
  | (id, q) :: rest, stream => if id = stream then q else queue rest stream

/-- Replaces the queue of a stream. A stream without sections is not kept. -/
def put : Streams → Nat → SentQueue → Streams
  | [], stream, q => if q.isEmpty then [] else [(stream, q)]
  | (id, old) :: rest, stream, q =>
    if id = stream then if q.isEmpty then rest else (id, q) :: rest
    else (id, old) :: put rest stream q

def sections (streams : Streams) : List SentSection := streams.flatMap (·.2)

/-- Gives back the units of all sections that need at most `known` insertions. -/
def settle (known : Nat) (streams : Streams) : Streams :=
  streams.map fun (id, q) => (id, q.map (SentSection.settle known))

/-- How many units `settle` gives back. -/
def settled (known : Nat) (streams : Streams) : Nat :=
  streams.sections.countP (SentSection.settles known)

end Streams

/-! ## Operations on a queue -/

/-- Whether a section needs an insertion. Only then the peer acknowledges it. -/
def SentSection.needsInsertion (s : SentSection) : Bool := decide (0 < s.requiredInsertCount)

inductive QueueOperation where
  | add (s : SentSection)
  | acknowledge
deriving DecidableEq, Repr

namespace QueueOperation

/-- The section that an operation brings. -/
def added? : QueueOperation → Option SentSection
  | add s => some s
  | acknowledge => none

/-- The sections that operations bring, in order. -/
def added (ops : List QueueOperation) : List SentSection := ops.filterMap added?

end QueueOperation

namespace SentQueue

/-- The queue after an operation, and the section that an acknowledgement means. One that means none leaves
the queue as it is. -/
def perform (q : SentQueue) : QueueOperation → SentQueue × Option SentSection
  | .add s => (q.add s, none)
  | .acknowledge =>
    match q.acknowledge? with
    | some (s, rest) => (rest, some s)
    | none => (q, none)

/-- Operations one after another, and all sections that they give back. -/
def run (q : SentQueue) : List QueueOperation → SentQueue × List SentSection
  | [] => (q, [])
  | op :: rest =>
    let now := q.perform op
    let later := run now.1 rest
    (later.1, now.2.toList ++ later.2)

end SentQueue
end Qpack
