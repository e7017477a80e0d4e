import Qpack.Encoder.Receiving
import Qpack.Encoder.Sending

/-!
# Operations on an encoder

An encoder gives every instruction away at once, to whatever takes it.

* `Operation`, `Reply` : everything that can be asked of an encoder, and the answers;
* `Encoder.perform` : one operation;
* `Encoder.run` : several, with all instructions they send;
* `Encoder.Reachable` : the states of an encoder;
* `Handler` : how what was taken grows by one instruction;
* `Handler.list`, `Handler.octets` : keeps the instructions; keeps their octets, ready for the encoder
  stream;
* `Encoder.runWith` : operations with a handler.
-/

namespace Qpack

inductive Operation where
  | setCapacity (capacity : Nat)
  | encode (stream : Nat) (fields : List Field)
  | insert (f : Field)
  | receive (report : Feedback)
  | feedback (data : Octets)
  | setValidation (validate : Bool)
  | setPolicy (policy : Policy)

inductive Reply where
  | done
  /-- The octets of a field section. -/
  | encoded (octets : Octets)
  /-- Whether the field was inserted. -/
  | inserted (done : Bool)
  /-- How many octets are done with. -/
  | consumed (count : Nat)
deriving DecidableEq, Repr

namespace Encoder

def perform (e : Encoder) : Operation → Outcome Reply
  | .setCapacity capacity => (e.setCapacity capacity).map fun _ => .done
  | .encode stream fields => (e.encode stream fields).map .encoded
  | .insert f => (e.insert f).map .inserted
  | .receive report => (e.receive report).map fun _ => .done
  | .feedback data => (e.feedback data).map .consumed
  | .setValidation validate => ⟨.ok .done, { e with validate }, []⟩
  | .setPolicy policy => ⟨.ok .done, { e with policy }, []⟩

/-- Operations one after another, and all instructions they send. -/
def run (e : Encoder) : List Operation → Encoder × List Instruction
  | [] => (e, [])
  | op :: rest =>
    let now := e.perform op
    let later := now.encoder.run rest
    (later.1, now.emitted ++ later.2)

/-- The state of an encoder after any operations, whatever each of them answered. -/
def Reachable (e : Encoder) : Prop :=
  ∃ settings start ops, ofSettings settings = .ok start ∧ (start.run ops).1 = e

end Encoder

/-! ## What becomes of the instructions -/

/-- How what was taken grows by one instruction. -/
abbrev Handler (α : Type) := α → Instruction → α

namespace Handler

def list : Handler (List Instruction) := fun taken i => taken ++ [i]

def octets : Handler Octets := fun taken i => taken ++ i.write

end Handler

/-- Operations one after another. The handler takes all instructions that they send. -/
def Encoder.runWith {α : Type} (handler : Handler α) (e : Encoder) (taken : α) :
    List Operation → Encoder × α
  | [] => (e, taken)
  | op :: rest =>
    let now := e.perform op
    now.encoder.runWith handler (now.emitted.foldl handler taken) rest

end Qpack
