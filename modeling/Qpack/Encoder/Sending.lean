import Qpack.Encoder.State
import Qpack.Section.Line

/-!
# What the sender asks for

The lines of a section are chosen one after another, and the table changes with them. The base is
the insert count at the end, so all indices count back from it.

* `Draft` : the encoder, what the section depends on, its lines, and the instructions sent on the
  way;
* `refer?` : the section takes an entry into use, if the entry and the budget allow it;
* `indexed?`, `duplicated?`, `named?`, `literal` : the ways to write a field, best first;
* `add` : the first of them that there is;
* `head`, `octets` : the section;
* `Encoder.setCapacity` : another capacity of the table;
* `Encoder.encode` : a field section for a stream;
* `Encoder.insert` : a field for the table alone.
-/

namespace Qpack

structure Draft where
  encoder : Encoder
  /-- What the section depends on so far. -/
  sent : SentSection
  lines : List FieldLine
  emitted : List Instruction

namespace Draft

/-- A section without lines. -/
def start (e : Encoder) : Draft := ⟨e, .empty, [], []⟩

/-- One more line. -/
def line (d : Draft) (l : FieldLine) : Draft := { d with lines := d.lines ++ [l] }

/-- Draining entries leave. -/
def drain (d : Draft) : Draft :=
  { d with encoder := d.encoder.drain.1, emitted := d.emitted ++ d.encoder.drain.2 }

/-- A field enters the table, by the given instruction. -/
def insert (d : Draft) (f : Field) (instruction : Instruction) : Draft :=
  { d with
    encoder := { d.encoder with table := d.encoder.table.add f }
    emitted := d.emitted ++ [instruction] }

/-- The section may wait for an insertion: it already does, or there is a unit of the budget left
for it. -/
def block? (d : Draft) : Option Draft :=
  if d.sent.blocked then some d
  else if d.encoder.blocked < d.encoder.settings.maxBlockedStreams then
    some { d with
      encoder := { d.encoder with blocked := d.encoder.blocked + 1 }
      sent := d.sent.block }
  else none

/-- The section depends on one more dynamic entry. -/
def depend (d : Draft) (index : Nat) : Draft :=
  { d with
    encoder := { d.encoder with table := d.encoder.table.refer index }
    sent := d.sent.refer index }

/-- Takes an entry into use. A dynamic one must not drain, and the section has to wait if the peer
may not have it. -/
def refer? (d : Draft) : EntryRef → Option Draft
  | .static _ => some d
  | .dynamic index =>
    if d.encoder.table.canReference index then
      (if d.encoder.known ≤ index then d.block? else some d).map (·.depend index)
    else none

/-- Whether a line for the field comes with an insertion for the next time. The dynamic table does
not take a second copy. -/
def wantsEntry (d : Draft) (f : Field) : Bool :=
  d.encoder.admits f && !(d.encoder.table.lookup f).any (!·.isStatic)

/-- One more line, a literal name and value. -/
def literalLine (d : Draft) (f : Field) : Draft :=
  d.line (.literal f.name f.value (d.encoder.policy.neverIndex f) (d.encoder.policy.mayHuffman f))

/-! ## The ways to write a field -/

def indexed? (d : Draft) (f : Field) : Option Draft := do
  let entry ← d.encoder.table.lookup f
  let d ← d.refer? entry
  return d.line (.indexed entry)

/-- A new copy of an entry that drains. If the section cannot wait for the copy, a literal serves.
-/
def duplicated? (d : Draft) (f : Field) : Option Draft :=
  match d.encoder.table.lookup f with
  | some (.dynamic index) =>
    if !d.encoder.table.canReference index && d.encoder.admits f then
      let copy := EntryRef.dynamic d.encoder.table.inserted
      let d := d.insert f (.duplicate (d.encoder.table.inserted - 1 - index))
      match d.refer? copy with
      | some d => some (d.line (.indexed copy))
      | none => some (d.literalLine f)
    else none
  | _ => none

def named? (d : Draft) (f : Field) : Option Draft := do
  let entry ← d.encoder.table.lookupName f.name
  let referred ← d.refer? entry
  let inserted :=
    if d.wantsEntry f then referred.insert f (d.encoder.insertion f (some entry)) else referred
  return inserted.line
    (.named entry f.value (d.encoder.policy.neverIndex f) (d.encoder.policy.mayHuffman f))

def literal (d : Draft) (f : Field) : Draft :=
  (if d.wantsEntry f then d.insert f (d.encoder.insertion f none) else d).literalLine f

/-- One more field, in the best way that there is. -/
def write (d : Draft) (f : Field) : Draft :=
  (d.indexed? f <|> d.duplicated? f <|> d.named? f).getD (d.literal f)

def add (d : Draft) (f : Field) : Draft := d.drain.write f

/-! ## The section -/

/-- How many insertions the lines need. -/
def requiredInsertCount (d : Draft) : Nat :=
  (d.lines.map FieldLine.requiredInsertCount).foldl max 0

def head (d : Draft) : SectionHead := ⟨d.requiredInsertCount, d.encoder.table.inserted⟩

def octets (d : Draft) : Octets :=
  d.head.write d.encoder.settings.maxTableCapacity ++ d.lines.flatMap (·.write d.head.base)

/-- The section of some fields. -/
def ofFields (e : Encoder) (fields : List Field) : Draft := fields.foldl add (start e)

end Draft

/-! ## What can be asked for -/

namespace Encoder

/-- Asks for a capacity of the table. If entries in use do not fit it, it waits until they are given
up, and the peer is told then. -/
def setCapacity (e : Encoder) (capacity : Nat) : Outcome Unit :=
  if e.settings.maxTableCapacity < capacity then
    e.refuse (.capacityExceedsMaximum capacity e.settings.maxTableCapacity)
  else
    let (table, inEffect) := e.table.requestCapacity capacity
    ⟨.ok (), { e with table },
      if inEffect && table.capacity != e.table.capacity then [.setCapacity capacity] else []⟩

/-- The first field whose name is refused. -/
def refusedName? (e : Encoder) (fields : List Field) : Option Field :=
  if e.validate then fields.find? (!·.hasValidName) else none

/-- The section of some fields, which from now on is on its way. -/
def encode (e : Encoder) (stream : Nat) (fields : List Field) : Outcome Octets :=
  match e.refusedName? fields with
  | some f => e.refuse (.invalidFieldName stream (Text.decodeLossy f.name))
  | none =>
    let d := Draft.ofFields e fields
    let queue := SentQueue.add (d.encoder.streams.queue stream) d.sent
    ⟨.ok d.octets, { d.encoder with streams := d.encoder.streams.put stream queue }, d.emitted⟩

/-- The instruction that inserts a field outside of any section. -/
def standaloneInsertion (e : Encoder) (f : Field) : Instruction :=
  match e.table.find? f with
  | some index => .duplicate (e.table.inserted - 1 - index)
  | none => e.insertion f (e.table.lookupName f.name)

/-- Puts a field into the table, if the policy allows it and there is room. -/
def insert (e : Encoder) (f : Field) : Outcome Bool :=
  let (e, drained) := e.drain
  if e.admits f then
    ⟨.ok true, { e with table := e.table.add f }, drained ++ [e.standaloneInsertion f]⟩
  else ⟨.ok false, e, drained⟩

end Encoder
end Qpack
