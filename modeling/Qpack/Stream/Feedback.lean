import Qpack.Wire.Integer

/-!
# Feedback from the peer

What comes back on the decoder stream (RFC 9204, Section 4.4). The first bits tell which it is: `1`
an acknowledgement, `01` a cancellation, `00` an increment.

* `Feedback` : the three kinds;
* `write`, `writeAll` : their octets;
* `read` : the feedback at the front of the octets, and what follows it;
* `Ending`, `readAll` : everything that can be read, and why no more.
-/

namespace Qpack

inductive Feedback where
  /-- The oldest section of a stream that needs an insertion was decoded. -/
  | acknowledge (stream : Nat)
  /-- The sections of a stream will not be decoded. -/
  | cancel (stream : Nat)
  /-- That many more insertions have arrived. -/
  | increment (count : Nat)
deriving DecidableEq, Repr

namespace Feedback

def write : Feedback → Octets
  | acknowledge stream => Integer.write 7 0x80 stream
  | cancel stream => Integer.write 6 0x40 stream
  | increment count => Integer.write 6 0x00 count

def writeAll (list : List Feedback) : Octets := list.flatMap write

/-- The report at the front of `data`, and what follows it. -/
def read (data : Octets) : Except Integer.Fault (Feedback × Octets) :=
  match data with
  | [] => .error .truncated
  | b :: _ =>
    if 128 ≤ b.toNat then (Integer.read 7 data).map fun (v, rest) => (acknowledge v, rest)
    else if 64 ≤ b.toNat then (Integer.read 6 data).map fun (v, rest) => (cancel v, rest)
    else (Integer.read 6 data).map fun (v, rest) => (increment v, rest)

/-- A report has at least one octet. -/
theorem length_of_read {data rest : Octets} {item : Feedback} (h : read data = .ok (item, rest)) :
    rest.length < data.length := by
  have mapped {width : Nat} {make : Nat → Feedback}
      (h : (Integer.read width data).map (fun (v, rest) => (make v, rest)) = .ok (item, rest)) :
      rest.length < data.length := by
    cases hr : Integer.read width data with
    | error fault => rw [hr] at h; cases h
    | ok p => rw [hr] at h; cases h; exact Integer.length_of_read hr
  cases data with
  | nil => cases h
  | cons b tail =>
    simp only [read] at h
    split at h
    · exact mapped h
    · split at h <;> exact mapped h

inductive Ending where
  /-- These octets, perhaps none, may still become one. -/
  | waiting (rest : Octets)
  /-- What follows is none. -/
  | malformed (fault : Integer.Fault)
deriving DecidableEq, Repr

/-- All reports at the front of `data`, and why no more can be read. -/
def readAll (data : Octets) : List Feedback × Ending :=
  match _left : read data with
  | .ok (item, rest) => (item :: (readAll rest).1, (readAll rest).2)
  | .error .truncated => ([], .waiting data)
  | .error fault => ([], .malformed fault)
termination_by data.length
decreasing_by all_goals exact length_of_read _left

end Feedback
end Qpack
