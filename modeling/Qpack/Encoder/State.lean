import Qpack.Field
import Qpack.Sent
import Qpack.Settings
import Qpack.Stream.Instruction
import Qpack.Table.Operation

/-!
# The state of an encoder

* `Encoder` : the dynamic table, the sections on their way, and what the peer is known to have;
* `Encoder.new`, `Encoder.ofSettings` : a new encoder; only from settings that can be used;
* `Outcome` : what an operation answers, the encoder after it, and the instructions it sends to the
  peer;
* `Encoder.drain` : entries leave that need not stay.
-/

namespace Qpack

structure Encoder where
  settings : Settings
  policy : Policy
  /-- Whether field names are checked. -/
  validate : Bool
  table : DynamicTable
  /-- How many insertions the peer is known to have. -/
  known : Nat
  /-- How many sections hold a unit of the budget for streams that may block. -/
  blocked : Nat
  streams : Streams

structure Outcome (α : Type) where
  result : Except Error α
  encoder : Encoder
  /-- The instructions to the peer, in order. -/
  emitted : List Instruction

/-- The same, with another answer. -/
def Outcome.map {α β : Type} (f : α → β) (o : Outcome α) : Outcome β :=
  ⟨o.result.map f, o.encoder, o.emitted⟩

namespace Encoder

def new (settings : Settings) : Encoder where
  settings := settings
  policy := .standard settings.huffman
  validate := settings.validateFieldNames
  table := .empty settings.drainingPercent
  known := 0
  blocked := 0
  streams := []

def ofSettings (settings : Settings) : Except Error Encoder :=
  if settings.problems.isEmpty then .ok (new settings)
  else .error (.invalidSettings (settings.problems.map Settings.Problem.message))

/-- The common settings, with a limit on streams that may block. -/
def withLimit (maxBlockedStreams : Nat) : Encoder :=
  new { Settings.default with maxBlockedStreams }

/-- How many sections of a stream are on their way. -/
def outstanding (e : Encoder) (stream : Nat) : Nat := (e.streams.queue stream).length

/-- Nothing happens but an error. -/
def refuse {α : Type} (e : Encoder) (error : Error) : Outcome α := ⟨.error error, e, []⟩

/-- Draining entries leave; a capacity that takes effect thereby is told to the peer. -/
def drain (e : Encoder) : Encoder × List Instruction :=
  let (table, capacity?) := e.table.drain
  ({ e with table }, capacity?.toList.map .setCapacity)

/-- Whether a field may enter the table and fits into the room that is free. -/
def admits (e : Encoder) (f : Field) : Bool :=
  e.policy.mayIndex f && decide (f.size ≤ e.table.space)

/-- The instruction that inserts a field, with the name of an entry if one is given. -/
def insertion (e : Encoder) (f : Field) : Option EntryRef → Instruction
  | some (.static index) => .insertNamed (.static index) (e.policy.mayHuffman f) f.value
  | some (.dynamic index) =>
    .insertNamed (.relative (e.table.inserted - 1 - index)) (e.policy.mayHuffman f) f.value
  | none => .insertLiteral (e.policy.mayHuffman f) f.name (e.policy.mayHuffman f) f.value

end Encoder
end Qpack
