import Qpack.Encoder.Operation

/-!
# An encoder and its peer

Both ends of a connection, with all that is on its way between them: the instructions, the sections of
each stream, and the reports that come back. Each of these arrives in order, and after any time.

The peer keeps to the rules: it decodes the sections of a stream in order, and each only once it has the
insertions that the section needs. It acknowledges those that need any. It counts what it has reported,
and may report more insertions up to those it has. A stream on which it has something unacknowledged it
may cancel, once, and leaves alone from then on.

* `Lane` : the sections of one stream, from the encoder to the peer;
* `Exchange` : the state of both ends;
* `Exchange.Event`, `Exchange.step?` : what can happen next, and what it leads to;
* `Exchange.run?`, `Exchange.Reachable` : several events, and the states they lead to.
-/

namespace Qpack

/-- The sections of one stream. Each is given by how many insertions it needs. -/
structure Lane where
  /-- On their way, oldest first. -/
  travelling : List Nat
  /-- With the peer, and not decoded yet. -/
  waiting : List Nat
  /-- How many were decoded since the last acknowledgement. They need no insertion. -/
  passed : Nat
  /-- Whether the peer has cancelled the stream. -/
  cancelled : Bool
deriving DecidableEq, Repr

namespace Lane

/-- A stream without sections. -/
def empty : Lane := ⟨[], [], 0, false⟩

/-- One more section is sent. -/
def send (l : Lane) (required : Nat) : Lane := { l with travelling := l.travelling ++ [required] }

/-- Whether the peer may cancel the stream. -/
def mayCancel (l : Lane) : Bool := !l.cancelled && (0 < l.passed || !l.waiting.isEmpty)

end Lane

structure Exchange where
  encoder : Encoder
  /-- Instructions on their way, in order. -/
  instructions : List Instruction
  lanes : Nat → Lane
  /-- How many insertions the peer has. -/
  applied : Nat
  /-- How many insertions the peer has reported. -/
  known : Nat
  /-- All reports that the peer has sent, each with what it had reported then, itself included. -/
  told : List (Feedback × Nat)
  /-- How many reports have reached the encoder. -/
  heard : Nat

/-- Whether an operation is one of the sender, not a report of the peer. -/
def Operation.isOwn : Operation → Bool
  | .receive _ => false
  | .feedback _ => false
  | _ => true

/-- The section that an operation sends: its stream, and how many insertions it needs. -/
def Encoder.sends? (e : Encoder) : Operation → Option (Nat × Nat)
  | .encode stream fields =>
    match (e.encode stream fields).result with
    | .ok _ => some (stream, (Draft.ofFields e fields).requiredInsertCount)
    | .error _ => none
  | _ => none

namespace Exchange

/-- Both ends before anything is sent. -/
def start (e : Encoder) : Exchange := ⟨e, [], fun _ => .empty, 0, 0, [], 0⟩

def setLane (x : Exchange) (stream : Nat) (lane : Lane) : Exchange :=
  { x with lanes := fun id => if id = stream then lane else x.lanes id }

/-- The peer sends a report. -/
def report (x : Exchange) (report : Feedback) (known : Nat) : Exchange :=
  { x with known, told := x.told ++ [(report, known)] }

/-- What the peer had reported with its first `k` reports. -/
def knownAt (x : Exchange) (k : Nat) : Nat := ((x.told.take k).map Prod.snd).getLastD 0

inductive Event where
  /-- The encoder does something of its own. -/
  | operate (op : Operation)
  /-- The peer follows the next instruction. -/
  | follow
  /-- The next section of a stream arrives. -/
  | arrive (stream : Nat)
  /-- The peer decodes the next section of a stream. -/
  | decode (stream : Nat)
  /-- The peer reports more insertions. -/
  | increment (count : Nat)
  /-- The peer cancels a stream. -/
  | cancel (stream : Nat)
  /-- The next report reaches the encoder. -/
  | hear

def operate (x : Exchange) (op : Operation) : Exchange :=
  let now := x.encoder.perform op
  let x' := { x with encoder := now.encoder, instructions := x.instructions ++ now.emitted }
  match x.encoder.sends? op with
  | some (stream, required) => x'.setLane stream ((x.lanes stream).send required)
  | none => x'

def follow? (x : Exchange) : Option Exchange :=
  match x.instructions with
  | [] => none
  | i :: rest =>
    some { x with instructions := rest, applied := x.applied + if i.inserts then 1 else 0 }

def arrive? (x : Exchange) (stream : Nat) : Option Exchange :=
  let lane := x.lanes stream
  match lane.travelling with
  | [] => none
  | required :: rest =>
    some (x.setLane stream { lane with travelling := rest, waiting := lane.waiting ++ [required] })

/-- A section that needs insertions is decoded once they are there, and acknowledged. -/
def decode? (x : Exchange) (stream : Nat) : Option Exchange :=
  let lane := x.lanes stream
  match lane.waiting with
  | [] => none
  | required :: rest =>
    if lane.cancelled || x.applied < required then none
    else if required = 0 then
      some (x.setLane stream { lane with waiting := rest, passed := lane.passed + 1 })
    else
      some ((x.setLane stream { lane with waiting := rest, passed := 0 }).report (.acknowledge stream)
        (max x.known required))

def increment? (x : Exchange) (count : Nat) : Option Exchange :=
  if 0 < count ∧ x.known + count ≤ x.applied then
    some (x.report (.increment count) (x.known + count))
  else none

def cancel? (x : Exchange) (stream : Nat) : Option Exchange :=
  if (x.lanes stream).mayCancel then
    some ((x.setLane stream { x.lanes stream with cancelled := true }).report (.cancel stream) x.known)
  else none

/-- The encoder takes the next report, whatever it answers. -/
def hear? (x : Exchange) : Option Exchange :=
  x.told[x.heard]?.map fun (report, _) =>
    let now := x.encoder.receive report
    { x with
      encoder := now.encoder
      instructions := x.instructions ++ now.emitted
      heard := x.heard + 1 }

/-- The state after an event, if that can happen. -/
def step? (x : Exchange) : Event → Option Exchange
  | .operate op => if op.isOwn then some (x.operate op) else none
  | .follow => x.follow?
  | .arrive stream => x.arrive? stream
  | .decode stream => x.decode? stream
  | .increment count => x.increment? count
  | .cancel stream => x.cancel? stream
  | .hear => x.hear?

/-- Events one after another. -/
def run? (x : Exchange) (events : List Event) : Option Exchange := events.foldlM step? x

/-- The states that any events lead to. -/
def Reachable (x : Exchange) : Prop :=
  ∃ settings e events, Encoder.ofSettings settings = .ok e ∧ (start e).run? events = some x

end Exchange
end Qpack
