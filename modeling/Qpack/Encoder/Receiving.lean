import Qpack.Encoder.State
import Qpack.Stream.Feedback

/-!
# What the peer reports

* `Encoder.retire`, `Encoder.settle` : gives up what a decoded section held, and the budget of those
  the peer can decode;
* `Encoder.increment`, `Encoder.acknowledge`, `Encoder.cancel` : the three reports;
* `Encoder.receive`, `Encoder.receiveAll` : any report, and several up to the first error;
* `Encoder.feedback` : reports as octets of the decoder stream.
-/

namespace Qpack.Encoder

/-- Gives up the budget and the references of a section. -/
def retire (e : Encoder) (s : SentSection) : Encoder :=
  { e with
    blocked := e.blocked - s.blocked.toNat
    table := s.references.foldl DynamicTable.release e.table }

/-- Gives up the budget of the sections whose insertions the peer is known to have. -/
def settle (e : Encoder) : Encoder :=
  { e with
    blocked := e.blocked - e.streams.settled e.known
    streams := e.streams.settle e.known }

/-- The peer has `count` more insertions. -/
def increment (e : Encoder) (count : Nat) : Outcome Unit :=
  if count = 0 then e.refuse .zeroIncrement
  else if e.table.inserted < e.known + count then
    e.refuse (.incrementOverrun e.known count e.table.inserted)
  else ⟨.ok (), settle { e with known := e.known + count }, []⟩

/-- The peer has decoded the oldest section of a stream that needs an insertion, so it has those
insertions. -/
def acknowledge (e : Encoder) (stream : Nat) : Outcome Unit :=
  match (e.streams.queue stream).acknowledge? with
  | none => e.refuse (.unknownStream stream)
  | some (oldest, queue) =>
    let e := { e with
      streams := e.streams.put stream queue
      known := max e.known oldest.requiredInsertCount }
    let (e, drained) := (e.retire oldest).settle.drain
    ⟨.ok (), e, drained⟩

/-- The peer will not decode the sections of a stream. -/
def cancel (e : Encoder) (stream : Nat) : Outcome Unit :=
  match e.streams.queue stream with
  | [] => e.refuse (.unknownStream stream)
  | queue =>
    let e := { e with streams := e.streams.put stream [] }
    let (e, drained) := (queue.foldl retire e).drain
    ⟨.ok (), e, drained⟩

def receive (e : Encoder) : Feedback → Outcome Unit
  | .acknowledge stream => e.acknowledge stream
  | .cancel stream => e.cancel stream
  | .increment count => e.increment count

/-- Reports one after another, up to the first that is an error. -/
def receiveAll (e : Encoder) : List Feedback → Outcome Unit
  | [] => ⟨.ok (), e, []⟩
  | item :: rest =>
    let now := e.receive item
    match now.result with
    | .error _ => now
    | .ok () =>
      let later := now.encoder.receiveAll rest
      { later with emitted := now.emitted ++ later.emitted }

/-- Octets of the decoder stream; how many of them are done with. The rest may be the beginning of a
report. -/
def feedback (e : Encoder) (data : Octets) : Outcome Nat :=
  let (items, ending) := Feedback.readAll data
  let received := e.receiveAll items
  match received.result, ending with
  | .error error, _ => ⟨.error error, received.encoder, received.emitted⟩
  | .ok (), .waiting rest => ⟨.ok (data.length - rest.length), received.encoder, received.emitted⟩
  | .ok (), .malformed fault =>
    ⟨.error (.malformedFeedback fault.toError.message), received.encoder, received.emitted⟩

end Qpack.Encoder
